import MegaCache.Controlplane.Backup
import MegaCache.Events.Effects
import MegaCache.Protocols.SharedEntries

/-!
# When the protocols agree

RESP and HTTP share the entries of exactly the texts in ASCII.  A text of more than 1024
characters is no key by either protocol.
-/

namespace MegaCache.Protocols

open Engine
open Auth (Principal)
open Resp (Bytes)

section

variable {v : Server} {p : Principal} {s : String} {st : Engine SnapshotValue}
  {e : Entry SnapshotValue}

/-! ## Both protocols at a key in ASCII -/

theorem authorize_ok {permission : Auth.Permission} {keys : List Key}
    (h : p.allows permission keys = true) : Resp.authorize p permission keys = .ok () :=
  if_pos h

theorem authorized_ok {permission : Auth.Permission} {keys : List Key}
    (h : p.allows permission keys = true) : Http.authorized p permission keys = .ok () :=
  if_pos h

theorem get_run {key : Key} {r : CacheResult SnapshotValue} {st' : Engine SnapshotValue}
    (h : getEntry v.engine key st = (.ok r, st')) :
    StorageCall.run v.engine (.get key) st = (.ok (.result r), st') :=
  Prog.run_bind_ok h _

theorem read_resp_held (hs : Resp.key (Resp.utf8 s) = s) (hk : s ≠ "" ∧ s.length ≤ 1024)
    (hread : p.allows .read [s] = true) (h : st.entries.get? s = some e) {name : Bytes}
    (hname : Named "GET" [name]) (hlive : (v.engine.clock st.ticks : Deadline) < e.staleUntil) :
    (Resp.respond v.resp v.engine p [name, Resp.utf8 s] st).1 =
      .value (.bytes (Resp.valueBytes v.resp.floats (some e.value))) := by
  obtain ⟨reply, hone, hreply⟩ : ∃ reply, Resp.execute v.resp p [name, Resp.utf8 s] =
      Resp.one (.get s) reply ∧ ∀ r, reply (.result r) = Resp.lookupReply v.resp.floats r := by
    rw [execute_get (hname.args _), Resp.get]
    simp only [Resp.arg, List.getD_cons_succ, List.getD_cons_zero, hs, authorize_ok hread]
    exact ⟨_, rfl, fun _ => rfl⟩
  obtain ⟨r, st', hr, hcarries⟩ := getEntry_held (c := v.engine) hk h hlive
  rw [respond_one hone, get_run hr]
  simp only [hreply, Resp.lookupReply, if_neg hcarries.not_miss, hcarries.value]

theorem read_http_held (hk : s ≠ "" ∧ s.length ≤ 1024) (hread : p.allows .read [s] = true)
    (h : st.entries.get? s = some e) {r : Http.Request} (hverb : r.verb = .get)
    (hbody : r.hasBody = false) (htarget : Target "/v1/cache/" s r.target)
    (hlive : (v.engine.clock st.ticks : Deadline) < e.staleUntil) :
    ∃ result, (Http.respond v.http v.engine p r st).1 = some ⟨200, .result result⟩ ∧
      result.value = some e.value := by
  have hone : Http.route v.http p r = Http.one false (.get s) Http.resultReply := by
    obtain ⟨quoted, hpath, -⟩ := urlPath_target htarget cache_chars
    have hkey := keyFrom_target htarget cache_chars
    have hother : Http.keyFrom (Http.urlPath r.target) "/v1/explain/" = none := by
      rw [hpath]
      simp [Http.keyFrom]
    have hfixed : ∀ path ∈ ["/v1/stats", "/v1/origins", "/v1/events/status",
        "/v1/policies/recommendations", "/v1/experiments"], Http.urlPath r.target ≠ path.toList := by
      rw [hpath]
      simp
    simp only [List.forall_mem_cons] at hfixed
    obtain ⟨h₁, h₂, h₃, h₄, h₅, -⟩ := hfixed
    rw [Http.route, hverb]
    simp only [Http.doGet, hbody, Bool.false_eq_true, ↓reduceIte, h₁, h₂, h₃, h₄, h₅, hother, hkey,
      authorized_ok hread]
    rfl
  obtain ⟨result, st', hr, hcarries⟩ := getEntry_held (c := v.engine) hk h hlive
  refine ⟨result, ?_, hcarries.value⟩
  rw [respond_routed hone, get_run hr]
  rcases hcarries.state with hstate | hstate | hstate <;>
    simp [Http.resultReply, Http.resultResponse, Http.resultStatus, hstate]

theorem execute_delete_one {name value : Bytes} (hname : Named "DEL" [name])
    (hwrite : p.allows .write [Resp.key value] = true) :
    Resp.execute v.resp p [name, value] = Resp.one (.deleteMany [Resp.key value]) Resp.countReply := by
  rw [execute_delete (hname.args _), Resp.delete, Resp.counting, if_neg (by simp)]
  simp only [Resp.keys, List.tail_cons, List.map_cons, List.map_nil, authorize_ok hwrite]
  rfl

theorem delete_resp_held (hs : Resp.key (Resp.utf8 s) = s) (hk : s ≠ "" ∧ s.length ≤ 1024)
    (hwrite : p.allows .write [s] = true) (h : st.entries.get? s = some e) {name : Bytes}
    (hname : Named "DEL" [name]) :
    ∃ st', Resp.respond v.resp v.engine p [name, Resp.utf8 s] st = (.value (.int 1), st') ∧
      st'.entries.get? s = none := by
  have hone := execute_delete_one (v := v) hname (by rw [hs]; exact hwrite)
  obtain ⟨st', hr, hnone⟩ := deleteMany_held hk h
  rw [hs] at hone
  refine ⟨st', ?_, hnone⟩
  rw [respond_one hone, show StorageCall.run v.engine (.deleteMany [s]) st = (.ok (.count 1), st') from
    Prog.run_bind_ok hr _]
  rfl

theorem delete_http_held (hk : s ≠ "" ∧ s.length ≤ 1024) (hwrite : p.allows .write [s] = true)
    (h : st.entries.get? s = some e) {r : Http.Request} (hverb : r.verb = .delete)
    (htarget : Target "/v1/cache/" s r.target) :
    ∃ st', Http.respond v.http v.engine p r st = (some ⟨200, .deleted true⟩, st') ∧
      st'.entries.get? s = none := by
  obtain ⟨reply, hone, hreply⟩ : ∃ reply, Http.route v.http p r = Http.one false (.delete s) reply ∧
      ∀ b, reply (.flag b) = ⟨if b then 200 else 404, .deleted b⟩ := by
    rw [Http.route, hverb]
    simp only [Http.doDelete, keyFrom_target htarget cache_chars, authorized_ok hwrite]
    exact ⟨_, rfl, fun _ => rfl⟩
  obtain ⟨st', hr, hnone⟩ := delete_held hk h
  refine ⟨st', ?_, hnone⟩
  rw [respond_routed hone, show StorageCall.run v.engine (.delete s) st = (.ok (.flag true), st') from
    Prog.run_bind_ok hr _]
  simp [hreply]

theorem expire_held_resp (hs : Resp.key (Resp.utf8 s) = s) (hk : s ≠ "" ∧ s.length ≤ 1024)
    (hwrite : p.allows .write [s] = true) (h : st.entries.get? s = some e) {name seconds : Bytes}
    (hname : Named "EXPIRE" [name]) {n : ℕ} (hn : Decimal.pyInt seconds = some (n : ℤ)) (hpos : 0 < n)
    (hlive : (v.engine.clock st.ticks : Deadline) < e.staleUntil) :
    ∃ st' e', Resp.respond v.resp v.engine p [name, Resp.utf8 s, seconds] st = (.value (.int 1), st') ∧
      st'.entries.get? s = some e' ∧ e'.value = e.value ∧
      e'.freshUntil = ((v.engine.clock (st.ticks + 1) + n : ℚ) : Deadline) ∧
      e'.staleUntil = ((v.engine.clock (st.ticks + 1) + n : ℚ) : Deadline) := by
  have hseconds : Resp.positiveArg seconds "expire time" = .ok n := by
    simp only [Resp.positiveArg, Resp.nonNegativeArg, hn]
    rw [if_neg (by omega)]
    change (if n = 0 then _ else _) = _
    rw [if_neg (by omega)]
    rfl
  have hone : Resp.execute v.resp p [name, Resp.utf8 s, seconds] =
      Resp.one (.expire s n) Resp.countReply := by
    rw [execute_expire (hname.args _), Resp.expire]
    simp only [Resp.arg, List.getD_cons_succ, List.getD_cons_zero, hs, authorize_ok hwrite, hseconds]
    rfl
  obtain ⟨st', e', hr, hheld, hvalue, hfresh, hstale⟩ := expire_held (c := v.engine) hk h hlive hpos
  refine ⟨st', e', ?_, hheld, hvalue, hfresh, hstale⟩
  rw [respond_one hone, show StorageCall.run v.engine (.expire s n) st = (.ok (.flag true), st') from
    Prog.run_bind_ok hr _]
  rfl

/-- The reply to a lease that comes with a value. -/
theorem leaseReply_value {floats : Json.FloatText} {value : SnapshotValue}
    {r : CacheResult SnapshotValue} (h : Carries value r) :
    ∃ state rest, Resp.leaseReply floats false r =
      .list (state :: .bytes (Resp.valueBytes floats (some value)) :: rest) := by
  rcases h.state with hstate | hstate | hstate <;>
    exact ⟨_, _, by simp only [Resp.leaseReply, hstate, h.value]; rfl⟩

theorem lease_resp_held (hs : Resp.key (Resp.utf8 s) = s) (hk : s ≠ "" ∧ s.length ≤ 1024)
    (hread : p.allows .read [s] = true) (hwrite : p.allows .write [s] = true)
    (h : st.entries.get? s = some e) {name : Bytes} (hname : Named "MC.LEASE" [name])
    (hlive : (v.engine.clock (st.ticks + 1) : Deadline) < e.staleUntil) :
    (∃ state rest, (Resp.respond v.resp v.engine p [name, Resp.utf8 s] st).1 =
      .value (.list (state :: .bytes (Resp.valueBytes v.resp.floats (some e.value)) :: rest))) ∨
    ¬(v.engine.clock (st.ticks + 1) : Deadline) < e.freshUntil ∧
      (Resp.respond v.resp v.engine p [name, Resp.utf8 s] st).1 =
        .commandError "lease capacity exhausted" := by
  obtain ⟨reply, hone, htold⟩ : ∃ reply, Resp.execute v.resp p [name, Resp.utf8 s] =
      Resp.one (.acquireLease s) reply ∧
        ∀ r, reply (.result r) = Resp.leaseReply v.resp.floats false r := by
    rw [execute_mcLease (hname.args _), Resp.mcLease]
    simp only [Resp.arg, List.getD_cons_succ, List.getD_cons_zero, hs, authorize_ok hread,
      authorize_ok hwrite]
    exact ⟨_, rfl, fun _ => rfl⟩
  rw [respond_one hone]
  rcases acquireLease_held (c := v.engine) hk h hlive with ⟨r, st', hr, hcarries, -⟩ | ⟨hstale, st', hr⟩
  · left
    rw [show StorageCall.run v.engine (.acquireLease s) st = (.ok (.result r), st') from
      Prog.run_bind_ok hr _]
    obtain ⟨state, rest, hreply⟩ := leaseReply_value hcarries
    exact ⟨state, rest, congrArg Resp.Outcome.value ((htold r).trans hreply)⟩
  · right
    rw [show StorageCall.run v.engine (.acquireLease s) st = _ from Prog.run_bind_error hr _]
    exact ⟨hstale, rfl⟩

theorem lease_http_held (hk : s ≠ "" ∧ s.length ≤ 1024) (hread : p.allows .read [s] = true)
    (hwrite : p.allows .write [s] = true) (h : st.entries.get? s = some e) {r : Http.Request}
    (hverb : r.verb = .post) (htarget : Target "/v1/lease/" s r.target)
    (hlive : (v.engine.clock (st.ticks + 1) : Deadline) < e.staleUntil) :
    (∃ result, (Http.respond v.http v.engine p r st).1 = some ⟨200, .result result⟩ ∧
      result.value = some e.value) ∨
    ¬(v.engine.clock (st.ticks + 1) : Deadline) < e.freshUntil ∧
      (Http.respond v.http v.engine p r st).1 = some (Http.badRequest "lease capacity exhausted") := by
  have hone : Http.route v.http p r = Http.one false (.acquireLease s) Http.resultReply := by
    obtain ⟨quoted, hpath, -⟩ := urlPath_target htarget lease_chars
    have hkey := keyFrom_target htarget lease_chars
    have hother : Http.keyFrom (Http.urlPath r.target) "/v1/fetch/" = none := by
      rw [hpath]
      simp [Http.keyFrom]
    have hfixed : ∀ path ∈ ["/v1/events", "/v1/events/retry", "/v1/policies/simulate"],
        Http.urlPath r.target ≠ path.toList := by
      rw [hpath]
      simp
    simp only [List.forall_mem_cons] at hfixed
    obtain ⟨h₁, h₂, h₃, -⟩ := hfixed
    rw [Http.route, hverb]
    simp only [Http.doPost, ↓reduceIte, h₁, h₂, h₃, hother, hkey, authorized_ok hread,
      authorized_ok hwrite]
    rfl
  rw [respond_routed hone]
  rcases acquireLease_held (c := v.engine) hk h hlive with ⟨r, st', hr, hcarries, -⟩ | ⟨hstale, st', hr⟩
  · left
    refine ⟨r, ?_, hcarries.value⟩
    rw [show StorageCall.run v.engine (.acquireLease s) st = (.ok (.result r), st') from
      Prog.run_bind_ok hr _]
    rcases hcarries.state with hstate | hstate | hstate <;>
      simp [Http.resultReply, Http.resultResponse, Http.resultStatus, hstate]
  · right
    rw [show StorageCall.run v.engine (.acquireLease s) st = _ from Prog.run_bind_error hr _]
    exact ⟨hstale, rfl⟩

/-! ## Events -/

theorem deleteMany_other {keys : List Key} {l : List Bool} {st st' : Engine SnapshotValue}
    (h : Prog.collect delete keys st = (.ok l, st')) {k : Key} (hk : k ∉ keys) :
    st'.entries.get? k = st.entries.get? k := by
  induction keys generalizing st l with
  | nil => rw [← (Prod.mk.inj h).2]
  | cons key keys ih =>
    rw [Prog.collect, Prog.bind_eq_ok] at h
    obtain ⟨b, st₁, hdel, h⟩ := h
    rw [Prog.bind_eq_ok] at h
    obtain ⟨bs, st₂, hrest, h⟩ := h
    obtain rfl : st₂ = st' := (by simpa using h : _ ∧ st₂ = st').2
    rw [List.mem_cons, not_or] at hk
    rw [ih hrest hk.2, delete_ok hdel, OrderedDict.get?_erase, if_neg hk.1]

/-- A call of the storage for an event, with nothing else going on. -/
theorem removeAll_alone {g : Events.Ingestor SnapshotValue} {items : List String}
    {call : EngineM SnapshotValue ℕ} {n : ℕ} {w w' : Events.World SnapshotValue} (hluck : w.luck = [])
    (h : g.removeAll items call w = (.ok n, w')) : w'.luck = [] ∧
      (items = [] ∧ w'.engine = w.engine ∨ items ≠ [] ∧ call w.engine = (.ok n, w'.engine)) := by
  unfold Events.Ingestor.removeAll at h
  rw [Prog.run_ite] at h
  split_ifs at h with hitems
  · obtain ⟨-, rfl⟩ := Prod.mk.inj h
    exact ⟨hluck, .inl ⟨hitems, rfl⟩⟩
  · rw [Events.Ingestor.storageCall, Prog.bind_eq_ok] at h
    obtain ⟨fate, w₁, hfate, h⟩ := h
    obtain ⟨rfl, rfl⟩ : fate = .proceeds ∧ w₁ = w := by
      simp only [Events.Ingestor.nextLuck, Prog.run_lift, hluck, Prod.mk.injEq, Except.ok.injEq] at hfate
      refine ⟨hfate.1.symm, hfate.2.symm.trans ?_⟩
      rw [List.headD_nil, Events.Luck.calm, List.foldl_nil, List.tail_nil, ← hluck]
    simp only [Events.Ingestor.onEngine] at h
    rcases hrun : call w₁.engine with ⟨error | a, engine⟩ <;> rw [hrun] at h
    · simp at h
    · obtain ⟨ha, rfl⟩ := Prod.mk.inj h
      obtain rfl : a = n := by simpa using ha
      exact ⟨hluck, .inr ⟨hitems, rfl⟩⟩

theorem invalidated_held (h : st.entries.get? s = some e) {g : Events.Ingestor SnapshotValue}
    {event : Events.ChangeEvent} {closure : Events.Ingestor.Closure}
    {w w' : Events.World SnapshotValue} {r : Events.EventResult}
    (hclosure : g.closureOf event = .ok closure)
    (hrendered : s ∈ closure.keys ∨ ∃ t ∈ closure.tags, t ∈ e.tags) (hsound : Sound v.engine st)
    (hw : w.engine = st) (hluck : w.luck = []) (happly : g.applyEvent event w = (.ok r, w')) :
    w'.engine.entries.get? s = none := by
  rw [Events.Ingestor.applyEvent, Prog.bind_eq_ok] at happly
  obtain ⟨closure', w₀, hc, happly⟩ := happly
  obtain ⟨hc', rfl⟩ := Prog.fromExcept_eq_ok.mp hc
  obtain rfl : closure' = closure := Except.ok.inj (hc'.symm.trans hclosure)
  rw [Prog.bind_eq_ok] at happly
  obtain ⟨n, w₁, hkeys, happly⟩ := happly
  rw [Prog.bind_eq_ok] at happly
  obtain ⟨m, w₂, htags, happly⟩ := happly
  obtain rfl : w₂ = w' := (by simpa using happly : _ ∧ w₂ = w').2
  obtain ⟨hluck₁, hengine₁⟩ := removeAll_alone hluck hkeys
  obtain ⟨-, hengine₂⟩ := removeAll_alone hluck₁ htags
  -- after the keys: the entry is gone, or it is still there and has one of the tags
  have hmiddle : Sound v.engine w₁.engine ∧ (w₁.engine.entries.get? s = none ∨
      w₁.engine.entries.get? s = some e ∧ ∃ t ∈ closure'.tags, t ∈ e.tags) := by
    rcases hengine₁ with ⟨hnil, heq⟩ | ⟨-, hrun⟩
    · rw [heq, hw]
      refine ⟨hsound, .inr ⟨h, hrendered.resolve_left ?_⟩⟩
      rw [hnil]
      exact List.not_mem_nil
    · have hsound₁ : Sound v.engine w₁.engine := by
        have := Call.sound (.deleteMany closure'.keys) (hw ▸ hsound)
        rwa [Call.run, hrun] at this
      refine ⟨hsound₁, ?_⟩
      rw [Engine.deleteMany, Prog.bind_eq_ok] at hrun
      obtain ⟨l, st₁, hcollect, hrun⟩ := hrun
      obtain rfl : st₁ = w₁.engine := (by simpa using hrun : _ ∧ st₁ = w₁.engine).2
      by_cases hmem : s ∈ closure'.keys
      · exact .inl (deleteMany_absent v.engine hcollect s hmem)
      · exact .inr ⟨by rw [deleteMany_other hcollect hmem, hw, h], hrendered.resolve_left hmem⟩
  obtain ⟨hsound₁, hstate⟩ := hmiddle
  rcases hengine₂ with ⟨hnil, heq⟩ | ⟨-, hrun⟩
  · rw [heq]
    rcases hstate with hnone | ⟨-, t, ht, -⟩
    · exact hnone
    · rw [hnil] at ht
      exact absurd ht List.not_mem_nil
  · rcases invalidateTags_cases closure'.tags w₁.engine with ⟨error, herror⟩ | ⟨k, hok⟩
    · rw [hrun] at herror
      cases herror
    · rw [hrun] at hok
      rw [(Prod.mk.inj hok).2, get?_invalidateLocked hsound₁.accounts.indexes]
      rcases hstate with hnone | ⟨hsome, ht⟩
      · rw [hnone]
        rfl
      · rw [hsome, Option.filter_some_neg]
        simpa using ht

theorem served_ascii (hs : AsciiText s) (hk : s ≠ "" ∧ s.length ≤ 1024)
    (hread : p.allows .read [s] = true) (hwrite : p.allows .write [s] = true)
    (h : st.entries.get? s = some e) : Served v p s st s e where
  read_resp _ hname hlive := read_resp_held (key_ascii hs) hk hread h hname hlive
  read_http _ hverb hbody htarget hlive := read_http_held hk hread h hverb hbody htarget hlive
  delete_resp _ hname := delete_resp_held (key_ascii hs) hk hwrite h hname
  delete_http _ hverb htarget := delete_http_held hk hwrite h hverb htarget
  expire _ _ hname _ hn hpos hlive := expire_held_resp (key_ascii hs) hk hwrite h hname hn hpos hlive
  lease_resp _ hname hlive := lease_resp_held (key_ascii hs) hk hread hwrite h hname hlive
  lease_http _ hverb htarget hlive := lease_http_held hk hread hwrite h hverb htarget hlive
  invalidated _ _ _ _ _ _ _ hclosure hrendered hsound hw hluck happly :=
    invalidated_held (v := v) h hclosure hrendered hsound hw hluck happly

end

/-! ## Beyond ASCII -/

section

variable (floats : Json.FloatText)

/-- An engine with room for a small entry of the key `s`. -/
def roomyEngine (s : String) : EngineConfig SnapshotValue where
  maxEntries := 1
  defaultTtlSeconds := 60
  defaultStaleSeconds := 60
  leaseSeconds := 5
  maxMemoryBytes := s.utf8ByteSize + 1000
  maxEntryBytes := s.utf8ByteSize + 1000
  evictionPolicy := .lru
  clock := fun _ => 0
  tokenUrlsafe := fun _ => ""
  evictionScore := fun _ _ => 0
  codec := documentCodec floats
  positive := by omega
  clock_mono := stopped_mono

def roomyServer (s : String) : Server where
  resp := ⟨floats, fun _ => false, "", fun _ _ => [], fun _ _ => .error ""⟩
  http := ⟨floats, fun _ => false, fun _ => false, fun _ => Http.notFound⟩
  engine := roomyEngine floats s
  codec_eq := rfl

def operator : Principal := ⟨"operator", {.admin}, [], "default", ∅⟩

theorem operator_allows (permission : Auth.Permission) (keys : List Key) :
    operator.allows permission keys = true := by
  simp [operator, Principal.allows]

/-- `PUT /v1/cache/...` with the document `{"value":null}`. -/
def nullRequest (s : String) : Http.Request where
  verb := .put
  target := "/v1/cache/".toList ++ Percent.quoteAll (Json.utf8 s.toList)
  hasBody := true
  body := .ok (Json.utf8 (Json.dumps floats.repr (.obj [("value", .null)])) ++ [10])
  traceparent := none

variable {floats}

/-- The engine accepts the value for every key. -/
theorem roomy_put {s : String} (hk : s ≠ "" ∧ s.length ≤ 1024) : ∃ r st',
    put (roomyEngine floats s) s (.json .null) none none [] none false Engine.init = (.ok r, st') := by
  rw [put_ok_iff (Sound.init _), admits_iff]
  have hsize : ∀ st : Engine SnapshotValue,
      entrySize (roomyEngine floats s) s (.json .null) [] st = (.ok (s.utf8ByteSize + 132), st) := by
    intro st
    have hbytes : documentBytes floats (.json .null) = 4 := rfl
    simp only [entrySize, roomyEngine, documentCodec, hbytes, metadataBytes, List.map_nil, List.sum_nil,
      Prog.run_pure]
    congr 2
    omega
  have hwindows : ∀ st : Engine SnapshotValue, putWindows (roomyEngine floats s) none none false st =
      (.ok (((60 : ℚ) : Deadline), 60), st) := fun _ => rfl
  have hvalue : ∀ st : Engine SnapshotValue, snapshotValue (roomyEngine floats s) (.json .null) st =
      (.ok (.json .null), st) := by
    intro st
    have hstored : snapshotDocument floats (.json .null) = some (.json .null) :=
      snapshotDocument_of_ordered trivial
    simp only [snapshotValue, roomyEngine, documentCodec, hstored, Prog.run_pure]
  refine ⟨⟨.json .null, ((60 : ℚ) : Deadline), 60, [], s.utf8ByteSize + 132⟩, ?_, ?_⟩
  · have htags : ∀ st : Engine SnapshotValue, normalizeTags [] st = (.ok [], st) := fun _ => rfl
    rw [preparePut, Prog.run_bind_ok (validateKey_run hk _), Prog.run_bind_ok (hwindows _),
      Prog.run_bind_ok (htags _), Prog.run_bind_ok (hvalue _), List.dedup_nil,
      Prog.run_bind_ok (hsize _)]
    rw [if_neg (by simp [roomyEngine]), if_neg (by simp [roomyEngine])]
    rfl
  · have hreserved : reservedBytes s (Engine.init : Engine SnapshotValue) = 0 := rfl
    rw [hreserved]
    simp [roomyEngine]

theorem nullRequest_writes {s : String} (hk : s ≠ "" ∧ s.length ≤ 1024) :
    ∃ st', Writes (roomyServer floats s) operator s Engine.init st' s := by
  have htarget : Target "/v1/cache/" s (nullRequest floats s).target :=
    ⟨_, Percent.quotes_quoteAll _, rfl⟩
  obtain ⟨r, st', hput⟩ := @roomy_put floats s hk
  obtain ⟨reply, hone, hreply⟩ : ∃ reply, Http.route (roomyServer floats s).http operator
      (nullRequest floats s) =
        Http.one true (.put s (.json .null) ⟨.null, .null, .arr [], .null, false⟩) reply ∧
      ∀ result, reply (.result result) = ⟨201, .result result⟩ := by
    have hread : Http.readJson (roomyServer floats s).http (nullRequest floats s) =
        .ok [("value", .null)] := by
      have hdocument := @Json.loadsBytes_line floats [("value", .null)]
        (by simp [Json.Ordered, Json.OrderedFields]) (by simp)
      simp only [Http.readJson, nullRequest, roomyServer, hdocument]
    rw [Http.route, show (nullRequest floats s).verb = .put from rfl]
    simp only [Http.doPut, keyFrom_target htarget cache_chars, authorized_ok (operator_allows _ _), hread]
    exact ⟨_, rfl, fun _ => rfl⟩
  have hrun : StorageCall.run (roomyEngine floats s)
      (.put s (.json .null) ⟨.null, .null, .arr [], .null, false⟩) Engine.init =
        (.ok (.result r), st') :=
    Prog.run_bind_ok hput _
  refine ⟨st', @Writes.put _ _ _ _ _ (nullRequest floats s) _ _ _ _ r rfl htarget hone .here ?_⟩
  rw [respond_routed hone, show (roomyServer floats s).engine = roomyEngine floats s from rfl, hrun]
  simp only [hreply]

/-- By RESP there is another key than the one that HTTP wrote. -/
theorem not_shares_beyond {s : String} (h : ¬AsciiText s) (hlen : s.length ≤ 1024) :
    ¬SharesEntries floats s := by
  intro hshares
  have hne : s ≠ "" := by
    rintro rfl
    exact h (by simp [AsciiText])
  obtain ⟨st', hw⟩ := @nullRequest_writes floats s ⟨hne, hlen⟩
  have hother : s ≠ Resp.key (Resp.utf8 s) := fun heq => by
    have := length_key h
    rw [← heq] at this
    omega
  let e : Entry SnapshotValue := ⟨.json .null, ⊤, ⊤, [], 0, none, 0, 0, 0⟩
  have hserved := hshares (roomyServer floats s) operator rfl (operator_allows _ _)
    (operator_allows _ _) _ _ _ hw (storeEntry s e Engine.init) e (by rw [get?_storeEntry, if_pos rfl])
  obtain ⟨later, hdelete, -⟩ := hserved.delete_resp (Resp.utf8 "DEL") (by decide +kernel)
  have habsent : (storeEntry s e Engine.init).entries.get? (Resp.key (Resp.utf8 s)) = none := by
    rw [get?_storeEntry, if_neg (Ne.symm hother)]
    rfl
  rw [respond_one (execute_delete_one (by decide +kernel) (operator_allows _ _))] at hdelete
  have hcount := deleteMany_absent_one habsent
  rcases hrun : Engine.deleteMany [Resp.key (Resp.utf8 s)] (storeEntry s e Engine.init) with ⟨error | n, u⟩
  · rw [show StorageCall.run (roomyServer floats s).engine (.deleteMany [Resp.key (Resp.utf8 s)])
      (storeEntry s e Engine.init) = _ from Prog.run_bind_error hrun _] at hdelete
    simp only [Prod.mk.injEq] at hdelete
    split_ifs at hdelete
    all_goals exact absurd hdelete.1 (by simp)
  · rw [show StorageCall.run (roomyServer floats s).engine (.deleteMany [Resp.key (Resp.utf8 s)])
      (storeEntry s e Engine.init) = _ from Prog.run_bind_ok hrun _] at hdelete
    rw [hrun] at hcount
    refine hcount (congrArg Except.ok ?_)
    simpa [Resp.countReply] using (Prod.mk.inj hdelete).1

end

/-- The keys that the protocols share. -/
theorem protocols_share_entries (floats : Json.FloatText) :
    (∀ value stored, snapshotDocument floats value = some stored →
      Readable floats stored (Resp.valueBytes floats (some stored))) ∧
    ∀ s, SharesEntries floats s ↔ AsciiText s ∨ 1024 < s.length := by
  refine ⟨fun value stored h => valueBytes_readable h, fun s => ⟨fun h => ?_, fun h => ?_⟩⟩
  · by_contra hnot
    rw [not_or] at hnot
    exact not_shares_beyond hnot.1 (not_lt.mp hnot.2) h
  · intro v p hfloats hread hwrite st st' k hw later e he
    obtain ⟨hkey, hne, hle⟩ := hw.key
    rcases h with hs | hlong
    · have hks : k = s := by
        rcases hkey with hk | hk
        · exact hk
        · rw [hk, key_ascii hs]
      subst hks
      exact served_ascii hs ⟨hne, hle⟩ hread hwrite he
    · -- neither protocol takes so long a key
      exfalso
      rcases hkey with hk | hk
      · rw [hk] at hle
        omega
      · by_cases hs : AsciiText s
        · rw [hk, key_ascii hs] at hle
          omega
        · have := length_key hs
          rw [hk] at hle
          omega

/-- What HTTP writes under `é`, RESP does not delete. -/
theorem accent_not_shared : ¬SharesEntries Controlplane.plainFloats "é" := by
  have hlen : ("é" : String).length ≤ 1024 := by decide
  refine not_shares_beyond ?_ hlen
  intro h
  have h := h 'é' (by simp)
  revert h
  decide

end MegaCache.Protocols
