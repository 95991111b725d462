import MegaCache.Engine.Acceptance
import MegaCache.Engine.Held
import MegaCache.Events.Ingest
import MegaCache.Http.Routes
import MegaCache.Resp.Commands

/-!
# Entries shared by the protocols

HTTP takes a key as the text that its path quotes, events render it as a text, and RESP takes the
bytes of an argument as Latin-1.  As every client sends a text in UTF-8, the three agree on the
texts in ASCII.  For any other text RESP has a longer key of its own, which no request by HTTP
and no event for the text reaches.
-/

namespace MegaCache.Protocols

open Engine
open Auth (Principal)
open Resp (Bytes)

/-- Both protocols in front of one engine. -/
structure Server where
  resp : Resp.Site
  http : Http.Site
  engine : EngineConfig SnapshotValue
  codec_eq : engine.codec = documentCodec resp.floats

/-! ## Keys -/

/-- The name of a command, in either case of its letters. -/
def Named (name : String) (args : List Bytes) : Prop :=
  (Resp.ascii? (args.headD [])).map (fun text => text.map Char.toUpper) = some name

instance (name : String) (args : List Bytes) : Decidable (Named name args) := by
  unfold Named
  infer_instance

theorem Named.args {name : String} {first : Bytes} (h : Named name [first]) (rest : List Bytes) :
    Named name (first :: rest) := h

/-- The target of a request for the key `s`: its text, percent-encoded in any way. -/
def Target (start s : String) (target : List Char) : Prop :=
  ∃ quoted, Percent.Quotes (Json.utf8 s.toList) quoted ∧ target = start.toList ++ quoted

def AsciiText (s : String) : Prop := ∀ ch ∈ s.toList, ch.toNat < 128

theorem respUtf8_eq (s : String) : Resp.utf8 s = Json.utf8 s.toList := by
  conv_lhs => rw [← String.ofList_toList (s := s)]
  unfold Resp.utf8
  rw [String.toUTF8_eq_toByteArray, String.toByteArray_ofList]
  exact List.toList_data_toByteArray

/-- A character takes more than one byte unless it is in ASCII. -/
theorem one_lt_length {ch : Char} (h : ¬ch.toNat < 128) : 1 < (String.utf8EncodeChar ch).length := by
  fun_cases String.utf8EncodeChar with
  | case1 v hv => exact absurd (Nat.lt_succ_of_le hv) h
  | case2 v hv => simp
  | case3 v hv => simp
  | case4 v hv => simp

theorem latin1_ascii {text : List Char} (h : ∀ ch ∈ text, ch.toNat < 128) :
    (Json.utf8 text).map (fun b => Char.ofNat b.toNat) = text := by
  induction text with
  | nil => rfl
  | cons ch text ih =>
    have hch := h ch List.mem_cons_self
    have hbyte : (UInt8.ofNat ch.toNat).toNat = ch.toNat := by
      rw [UInt8.toNat_ofNat']
      omega
    rw [Json.utf8, List.flatMap_cons, Json.utf8EncodeChar_ascii hch, List.singleton_append, List.map_cons,
      hbyte, Char.ofNat_toNat]
    exact congrArg _ (ih fun ch' h' => h ch' (List.mem_cons_of_mem _ h'))

theorem key_ascii {s : String} (h : AsciiText s) : Resp.key (Resp.utf8 s) = s := by
  rw [respUtf8_eq, Resp.key, Resp.latin1, latin1_ascii h, String.ofList_toList]

theorem length_utf8 (text : List Char) : text.length ≤ (Json.utf8 text).length ∧
    ((∃ ch ∈ text, ¬ch.toNat < 128) → text.length < (Json.utf8 text).length) := by
  induction text with
  | nil => simp
  | cons ch text ih =>
    have hlen : (Json.utf8 (ch :: text)).length =
        (String.utf8EncodeChar ch).length + (Json.utf8 text).length := by
      simp [Json.utf8]
    have hpos : 1 ≤ (String.utf8EncodeChar ch).length := by
      rw [String.length_utf8EncodeChar]
      exact Char.utf8Size_pos ch
    rw [hlen, List.length_cons]
    refine ⟨by omega, ?_⟩
    rintro ⟨ch', hmem, hch'⟩
    rcases List.mem_cons.mp hmem with rfl | hmem
    · have := one_lt_length hch'
      omega
    · have := ih.2 ⟨ch', hmem, hch'⟩
      omega

/-- Beyond ASCII the key of RESP is longer than the text. -/
theorem length_key {s : String} (h : ¬AsciiText s) : s.length < (Resp.key (Resp.utf8 s)).length := by
  have hlong : ∃ ch ∈ s.toList, ¬ch.toNat < 128 := by
    unfold AsciiText at h
    push Not at h ⊢
    exact h
  have hlt := (length_utf8 s.toList).2 hlong
  rw [respUtf8_eq, Resp.key, Resp.latin1, String.length_ofList, List.length_map]
  rwa [String.length_toList] at hlt

theorem urlPath_target {start s : String} {target : List Char} (h : Target start s target)
    (hstart : ∀ ch ∈ start.toList, ch ≠ '?' ∧ ch ≠ '#') :
    ∃ quoted, Http.urlPath target = start.toList ++ quoted ∧ Percent.unquote quoted = s.toList := by
  obtain ⟨quoted, hq, rfl⟩ := h
  refine ⟨quoted, ?_, hq.unquote⟩
  rw [Http.urlPath, List.takeWhile_eq_self_iff]
  intro ch hch
  rw [decide_eq_true_eq]
  rcases List.mem_append.mp hch with hch | hch
  · exact hstart ch hch
  · exact (hq.chars ch hch).2

theorem keyFrom_target {start s : String} {target : List Char} (h : Target start s target)
    (hstart : ∀ ch ∈ start.toList, ch ≠ '?' ∧ ch ≠ '#') :
    Http.keyFrom (Http.urlPath target) start = some s := by
  obtain ⟨quoted, hpath, hs⟩ := urlPath_target h hstart
  rw [hpath, Http.keyFrom, if_pos (List.isPrefixOf_iff_prefix.mpr (List.prefix_append _ _)),
    List.drop_left, hs, String.ofList_toList]

theorem cache_chars : ∀ ch ∈ "/v1/cache/".toList, ch ≠ '?' ∧ ch ≠ '#' := by simp

theorem lease_chars : ∀ ch ∈ "/v1/lease/".toList, ch ≠ '?' ∧ ch ≠ '#' := by simp

/-! ## What it means to share an entry -/

/-- A write of the text `s` by one of the protocols that was accepted, and the key that its call
of the storage took. -/
inductive Writes (v : Server) (p : Principal) (s : String) :
    Engine SnapshotValue → Engine SnapshotValue → Key → Prop
  | set {st st' : Engine SnapshotValue} {args : List Bytes} {step : Step Resp.Result} {k : Key}
      {value : SnapshotValue} {options : PutOptions} (hname : Named "SET" args ∨ Named "MC.SET" args)
      (hkey : Resp.arg args 1 = Resp.utf8 s) (hstep : Resp.execute v.resp p args = .ok step)
      (hcall : step.Calls (.put k value options))
      (h : Resp.respond v.resp v.engine p args st = (.value Resp.okReply, st')) : Writes v p s st st' k
  | mset {st st' : Engine SnapshotValue} {args : List Bytes} {step : Step Resp.Result} {k : Key}
      {value : SnapshotValue} {values : List (Key × SnapshotValue)} {i : ℕ} (hname : Named "MSET" args)
      (hkey : Resp.arg args (2 * i + 1) = Resp.utf8 s) (hstep : Resp.execute v.resp p args = .ok step)
      (hcall : step.Calls (.mset values)) (hitem : values[i]? = some (k, value))
      (h : Resp.respond v.resp v.engine p args st = (.value Resp.okReply, st')) : Writes v p s st st' k
  | put {st st' : Engine SnapshotValue} {r : Http.Request} {routed : Http.Routed} {k : Key}
      {value : SnapshotValue} {options : PutOptions} {result : CacheResult SnapshotValue}
      (hverb : r.verb = .put) (htarget : Target "/v1/cache/" s r.target)
      (hroute : Http.route v.http p r = .ok routed) (hcall : routed.step.Calls (.put k value options))
      (h : Http.respond v.http v.engine p r st = (some ⟨201, .result result⟩, st')) :
      Writes v p s st st' k

/-- Both protocols and the events reach the entry `e` under the key `k` as the entry of `s`. -/
structure Served (v : Server) (p : Principal) (s : String) (st : Engine SnapshotValue) (k : Key)
    (e : Entry SnapshotValue) : Prop where
  /-- `GET` -/
  read_resp : ∀ name, Named "GET" [name] → (v.engine.clock st.ticks : Deadline) < e.staleUntil →
    (Resp.respond v.resp v.engine p [name, Resp.utf8 s] st).1 =
      .value (.bytes (Resp.valueBytes v.resp.floats (some e.value)))
  /-- `GET /v1/cache/...` -/
  read_http : ∀ r : Http.Request, r.verb = .get → r.hasBody = false → Target "/v1/cache/" s r.target →
    (v.engine.clock st.ticks : Deadline) < e.staleUntil →
    ∃ result, (Http.respond v.http v.engine p r st).1 = some ⟨200, .result result⟩ ∧
      result.value = some e.value
  /-- `DEL` -/
  delete_resp : ∀ name, Named "DEL" [name] →
    ∃ st', Resp.respond v.resp v.engine p [name, Resp.utf8 s] st = (.value (.int 1), st') ∧
      st'.entries.get? k = none
  /-- `DELETE /v1/cache/...` -/
  delete_http : ∀ r : Http.Request, r.verb = .delete → Target "/v1/cache/" s r.target →
    ∃ st', Http.respond v.http v.engine p r st = (some ⟨200, .deleted true⟩, st') ∧
      st'.entries.get? k = none
  /-- `EXPIRE` -/
  expire : ∀ name seconds, Named "EXPIRE" [name] → ∀ n : ℕ, Decimal.pyInt seconds = some (n : ℤ) → 0 < n →
    (v.engine.clock st.ticks : Deadline) < e.staleUntil →
    ∃ st' e', Resp.respond v.resp v.engine p [name, Resp.utf8 s, seconds] st = (.value (.int 1), st') ∧
      st'.entries.get? k = some e' ∧ e'.value = e.value ∧
      e'.freshUntil = ((v.engine.clock (st.ticks + 1) + n : ℚ) : Deadline) ∧
      e'.staleUntil = ((v.engine.clock (st.ticks + 1) + n : ℚ) : Deadline)
  /-- `MC.LEASE`, which may be refused only for an entry that is not fresh -/
  lease_resp : ∀ name, Named "MC.LEASE" [name] →
    (v.engine.clock (st.ticks + 1) : Deadline) < e.staleUntil →
    (∃ state rest, (Resp.respond v.resp v.engine p [name, Resp.utf8 s] st).1 =
      .value (.list (state :: .bytes (Resp.valueBytes v.resp.floats (some e.value)) :: rest))) ∨
    ¬(v.engine.clock (st.ticks + 1) : Deadline) < e.freshUntil ∧
      (Resp.respond v.resp v.engine p [name, Resp.utf8 s] st).1 =
        .commandError "lease capacity exhausted"
  /-- `POST /v1/lease/...` -/
  lease_http : ∀ r : Http.Request, r.verb = .post → Target "/v1/lease/" s r.target →
    (v.engine.clock (st.ticks + 1) : Deadline) < e.staleUntil →
    (∃ result, (Http.respond v.http v.engine p r st).1 = some ⟨200, .result result⟩ ∧
      result.value = some e.value) ∨
    ¬(v.engine.clock (st.ticks + 1) : Deadline) < e.freshUntil ∧
      (Http.respond v.http v.engine p r st).1 = some (Http.badRequest "lease capacity exhausted")
  /-- an event that renders the key or a tag of the entry, with nothing else going on -/
  invalidated : ∀ (g : Events.Ingestor SnapshotValue) (event : Events.ChangeEvent)
    (closure : Events.Ingestor.Closure) (w w' : Events.World SnapshotValue) (r : Events.EventResult),
    g.engine = v.engine → g.closureOf event = .ok closure →
    (s ∈ closure.keys ∨ ∃ t ∈ closure.tags, t ∈ e.tags) → Sound v.engine st → w.engine = st →
    w.luck = [] → g.applyEvent event w = (.ok r, w') → w'.engine.entries.get? k = none

/-- The entries of the text `s` are the same by both protocols and for the events: whichever wrote
an entry, as long as it is held every one of them reaches it. -/
def SharesEntries (floats : Json.FloatText) (s : String) : Prop :=
  ∀ (v : Server) (p : Principal), v.resp.floats = floats → p.allows .read [s] = true →
    p.allows .write [s] = true → ∀ st st' k, Writes v p s st st' k →
    ∀ later e, later.entries.get? k = some e → Served v p s later k e

/-- The bytes of a value for a client: bytes as they are, a text in UTF-8, and for any other value
JSON text that is read as the value. -/
def Readable (floats : Json.FloatText) (value : SnapshotValue) (data : Bytes) : Prop :=
  match value with
  | .bytes stored => data = stored
  | .json (.str text) => data = Resp.utf8 text
  | .json stored => Json.loads floats data = some stored

theorem valueBytes_readable {floats : Json.FloatText} {value stored : SnapshotValue}
    (h : snapshotDocument floats value = some stored) :
    Readable floats stored (Resp.valueBytes floats (some stored)) := by
  have hordered := snapshotDocument_ordered h
  cases stored with
  | bytes data => rfl
  | json j =>
    cases j with
    | str text => rfl
    | null | bool _ | int _ | float _ | nonFinite _ | arr _ | obj _ =>
      exact Json.loads_dumpsAscii hordered

/-! ## Requests as calls of the storage -/

section

variable {v : Server} {p : Principal} {s : String} {args : List Bytes}

/-- A command that makes one call of the storage. -/
theorem respond_one {call : StorageCall} {reply : StorageAnswer → Resp.Result}
    (h : Resp.execute v.resp p args = Resp.one call reply) (st : Engine SnapshotValue) :
    Resp.respond v.resp v.engine p args st =
      match call.run v.engine st with
      | (.ok a, st') => (.value (reply a), st')
      | (.error e, st') =>
        (if e.kind = .valueError then .commandError e.message else .failure, st') := by
  unfold Resp.respond
  rw [h]
  simp only [Resp.one, Step.run, Prog.run_bind]
  rcases call.run v.engine st with ⟨e | a, st'⟩ <;> rfl

/-- A command that returned a value made its call. -/
theorem respond_ok {call : StorageCall} {reply : StorageAnswer → Resp.Result} {st st' : Engine SnapshotValue}
    {r : Resp.Result} (h : Resp.execute v.resp p args = Resp.one call reply)
    (hr : Resp.respond v.resp v.engine p args st = (.value r, st')) :
    ∃ a st₁, call.run v.engine st = (.ok a, st₁) := by
  rw [respond_one h] at hr
  rcases hrun : call.run v.engine st with ⟨e | a, st₁⟩ <;> rw [hrun] at hr
  · simp only [Prod.mk.injEq] at hr
    split_ifs at hr
    all_goals exact absurd hr.1 (by simp)
  · exact ⟨a, st₁, rfl⟩

theorem named_dispatch {name : String} (h : Named name args) :
    ∃ text, Resp.ascii? (args.headD []) = some text ∧ text.map Char.toUpper = name :=
  Option.map_eq_some_iff.mp h

/-- The commands that this part is about, each with its own function. -/
theorem execute_named :
    (Named "GET" args → Resp.execute v.resp p args = Resp.get p args v.resp.floats) ∧
    (Named "SET" args → Resp.execute v.resp p args = Resp.set p args) ∧
    (Named "MC.SET" args → Resp.execute v.resp p args = Resp.mcSet p args) ∧
    (Named "DEL" args → Resp.execute v.resp p args = Resp.delete p args) ∧
    (Named "EXPIRE" args → Resp.execute v.resp p args = Resp.expire p args) ∧
    (Named "MC.LEASE" args → Resp.execute v.resp p args = Resp.mcLease p args v.resp.floats) ∧
    (Named "MSET" args → Resp.execute v.resp p args = Resp.mset p args) := by
  refine ⟨?_, ?_, ?_, ?_, ?_, ?_, ?_⟩
  all_goals
    intro h
    obtain ⟨text, htext, hname⟩ := named_dispatch h
    unfold Resp.execute
    rw [htext]
    simp only [hname]

theorem execute_get (h : Named "GET" args) :
    Resp.execute v.resp p args = Resp.get p args v.resp.floats := execute_named.1 h

theorem execute_set (h : Named "SET" args) : Resp.execute v.resp p args = Resp.set p args :=
  execute_named.2.1 h

theorem execute_mcSet (h : Named "MC.SET" args) : Resp.execute v.resp p args = Resp.mcSet p args :=
  execute_named.2.2.1 h

theorem execute_delete (h : Named "DEL" args) : Resp.execute v.resp p args = Resp.delete p args :=
  execute_named.2.2.2.1 h

theorem execute_expire (h : Named "EXPIRE" args) : Resp.execute v.resp p args = Resp.expire p args :=
  execute_named.2.2.2.2.1 h

theorem execute_mcLease (h : Named "MC.LEASE" args) :
    Resp.execute v.resp p args = Resp.mcLease p args v.resp.floats := execute_named.2.2.2.2.2.1 h

theorem execute_mset (h : Named "MSET" args) : Resp.execute v.resp p args = Resp.mset p args :=
  execute_named.2.2.2.2.2.2 h

/-- A request that makes one call of the storage. -/
theorem respond_routed {r : Http.Request} {call : StorageCall} {typeErrors : Bool}
    {reply : StorageAnswer → Http.Response} (h : Http.route v.http p r = Http.one typeErrors call reply)
    (st : Engine SnapshotValue) :
    Http.respond v.http v.engine p r st =
      match call.run v.engine st with
      | (.ok a, st') => (some (reply a), st')
      | (.error e, st') =>
        (if e.kind = .valueError ∨ e.kind = .typeError ∧ typeErrors then some (Http.badRequest e.message)
        else none, st') := by
  unfold Http.respond
  rw [h]
  simp only [Http.one, Step.run, Prog.run_bind]
  rcases call.run v.engine st with ⟨e | a, st'⟩ <;> rfl

/-- A request that was not answered with an error made its call. -/
theorem respond_routed_ok {r : Http.Request} {call : StorageCall} {typeErrors : Bool}
    {reply : StorageAnswer → Http.Response} {st st' : Engine SnapshotValue} {response : Http.Response}
    (h : Http.route v.http p r = Http.one typeErrors call reply) (hstatus : response.status ≠ 400)
    (hr : Http.respond v.http v.engine p r st = (some response, st')) :
    ∃ a st₁, call.run v.engine st = (.ok a, st₁) := by
  rw [respond_routed h] at hr
  rcases hrun : call.run v.engine st with ⟨e | a, st₁⟩ <;> rw [hrun] at hr
  · simp only [Prod.mk.injEq] at hr
    split_ifs at hr
    · obtain rfl := Option.some.inj hr.1
      exact absurd rfl hstatus
    · exact absurd hr.1 (by simp)
  · exact ⟨a, st₁, rfl⟩

end

/-! ## The keys of the writes -/

section

variable {v : Server} {p : Principal} {s : String}

theorem calls_one {ρ : Type} {call c : StorageCall} {reply : StorageAnswer → ρ}
    (h : (Step.call call fun a => .reply (reply a)).Calls c) : c = call := by
  cases h with
  | here => rfl
  | later h => cases h

theorem set_ok {args : List Bytes} {step : Step Resp.Result} (h : Resp.set p args = .ok step) :
    ∃ value options, Resp.one (.put (Resp.key (Resp.arg args 1)) value options)
      (fun _ => Resp.okReply) = .ok step := by
  unfold Resp.set at h
  split at h
  · cases h
  · obtain ⟨_, -, h⟩ := except_bind_ok.mp h
    split at h
    · obtain ⟨_, -, h⟩ := except_bind_ok.mp h
      obtain ⟨_, -, h⟩ := except_bind_ok.mp h
      exact ⟨_, _, h⟩
    · exact ⟨_, _, h⟩

theorem mcSet_ok {args : List Bytes} {step : Step Resp.Result} (h : Resp.mcSet p args = .ok step) :
    ∃ value options, Resp.one (.put (Resp.key (Resp.arg args 1)) value options)
      (fun _ => Resp.okReply) = .ok step := by
  unfold Resp.mcSet at h
  split_ifs at h
  obtain ⟨_, -, h⟩ := except_bind_ok.mp h
  obtain ⟨_, -, h⟩ := except_bind_ok.mp h
  exact ⟨_, _, h⟩

theorem mset_ok {args : List Bytes} {step : Step Resp.Result} (h : Resp.mset p args = .ok step) :
    Resp.one (.mset (Resp.pairs args.tail)) (fun _ => Resp.okReply) = .ok step := by
  unfold Resp.mset at h
  split_ifs at h
  obtain ⟨_, -, h⟩ := except_bind_ok.mp h
  exact h

theorem pairs_key (l : List Bytes) : ∀ {i : ℕ} {q : Key × SnapshotValue},
    (Resp.pairs l)[i]? = some q → q.1 = Resp.key (l.getD (2 * i) []) := by
  induction l using Resp.pairs.induct with
  | case1 k value rest ih =>
    intro i q h
    cases i with
    | zero =>
      rw [Resp.pairs, List.getElem?_cons_zero, Option.some.injEq] at h
      rw [← h]
      rfl
    | succ i =>
      rw [Resp.pairs, List.getElem?_cons_succ] at h
      rw [ih h]
      rfl
  | case2 l hl =>
    intro i q h
    rw [Resp.pairs] at h
    · simp at h
    · exact hl

theorem putDocument_ok {c : EngineConfig SnapshotValue} {k : Key} {value : SnapshotValue}
    {options : PutOptions} {a : StorageAnswer} {st st' : Engine SnapshotValue}
    (h : putDocument c k value options st = (.ok a, st')) : k ≠ "" ∧ k.length ≤ 1024 := by
  generalize hm : putDocument c k value options = m at h
  unfold putDocument at hm
  split at hm <;> subst hm
  · obtain ⟨r, st₁, hput, -⟩ := Prog.bind_eq_ok.mp h
    rw [Engine.put, Prog.bind_eq_ok] at hput
    obtain ⟨q, st₂, hprep, -⟩ := hput
    exact ⟨(preparePut_ok hprep).2.key_ne, (preparePut_ok hprep).2.key_le⟩
  · unfold refuse at h
    obtain ⟨_, st₁, hkey, -⟩ := Prog.bind_eq_ok.mp h
    exact (validateKey_ok hkey).2

theorem mset_valid {c : EngineConfig SnapshotValue} {values : List (Key × SnapshotValue)} {a : StorageAnswer}
    {st st' : Engine SnapshotValue} (h : StorageCall.run c (.mset values) st = (.ok a, st'))
    {q : Key × SnapshotValue} (hq : q ∈ values) : q.1 ≠ "" ∧ q.1.length ≤ 1024 := by
  obtain ⟨_, st₁, hmset, -⟩ := Prog.bind_eq_ok.mp h
  rw [Engine.mset, Prog.bind_eq_ok] at hmset
  obtain ⟨_, st₂, hcheck, -⟩ := hmset
  obtain ⟨u, u', -, hone, -⟩ := Prog.Rel.forEach_round
    (R := Prog.Preserves fun _ => True) (fun _ _ _ _ => trivial) hcheck q hq
  rw [msetCheck, Prog.bind_eq_ok] at hone
  obtain ⟨_, u₁, hkey, -⟩ := hone
  exact (validateKey_ok hkey).2

theorem doPut_ok {r : Http.Request} {routed : Http.Routed} (hverb : r.verb = .put)
    (htarget : Target "/v1/cache/" s r.target) (h : Http.route v.http p r = .ok routed) :
    ∃ value options reply, Http.one true (.put s value options) reply = .ok routed := by
  rw [Http.route, hverb] at h
  simp only [Http.doPut, keyFrom_target htarget cache_chars] at h
  obtain ⟨_, -, h⟩ := except_bind_ok.mp h
  obtain ⟨fields, -, h⟩ := except_bind_ok.mp h
  split at h
  · cases h
  · exact ⟨_, _, _, h⟩

/-- Where the call of a write went, and that the engine accepts the key. -/
theorem Writes.key {st st' : Engine SnapshotValue} {k : Key} (h : Writes v p s st st' k) :
    (k = s ∨ k = Resp.key (Resp.utf8 s)) ∧ k ≠ "" ∧ k.length ≤ 1024 := by
  cases h with
  | set hname hkey hstep hcall h =>
    rename_i args step value options
    have hone : ∃ value options, Resp.one (.put (Resp.key (Resp.arg args 1)) value options)
        (fun _ => Resp.okReply) = .ok step := by
      rcases hname with hname | hname
      · exact set_ok (execute_set hname ▸ hstep)
      · exact mcSet_ok (execute_mcSet hname ▸ hstep)
    obtain ⟨value', options', hone⟩ := hone
    obtain ⟨a, st₁, hrun⟩ := respond_ok (hstep.trans hone.symm) h
    obtain rfl := Except.ok.inj hone
    obtain ⟨rfl, -, -⟩ := StorageCall.put.inj (calls_one hcall)
    exact ⟨.inr (by rw [hkey]), putDocument_ok hrun⟩
  | mset hname hkey hstep hcall hitem h =>
    rename_i args step value values i
    have hone := mset_ok (execute_mset hname ▸ hstep)
    obtain ⟨a, st₁, hrun⟩ := respond_ok (hstep.trans hone.symm) h
    obtain rfl := Except.ok.inj hone
    obtain rfl := StorageCall.mset.inj (calls_one hcall)
    have hk : k = _ := pairs_key args.tail hitem
    refine ⟨.inr ?_, mset_valid hrun (List.mem_of_getElem? hitem)⟩
    rw [← hkey, hk]
    cases args <;> rfl
  | put hverb htarget hroute hcall h =>
    rename_i r routed value options result
    obtain ⟨value', options', reply, hone⟩ := doPut_ok hverb htarget hroute
    obtain ⟨a, st₁, hrun⟩ := respond_routed_ok (hroute.trans hone.symm) (show (201 : ℕ) ≠ 400 by decide) h
    obtain rfl := Except.ok.inj hone
    obtain ⟨rfl, -, -⟩ := StorageCall.put.inj (calls_one hcall)
    exact ⟨.inl rfl, putDocument_ok hrun⟩

end

end MegaCache.Protocols
