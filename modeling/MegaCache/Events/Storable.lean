import MegaCache.Engine.Atomicity
import MegaCache.Events.Dependencies
import MegaCache.Events.Redelivery

/-!
# Closures that the storage takes

The event layer lets keys and tags through that an engine refuses: it qualifies keys after it
checked their length, and it admits longer tags, and more of them.
-/

namespace MegaCache
namespace Events

open Prog
open Engine (TagsFit normalizeTags_ok normalizeTags_fit collect_delete_error)
open MutationClock (ValidKey deleteAll_ok)

variable {V : Type} {g : Ingestor V} {event : ChangeEvent} {w w' : World V}

/-! ## Calls on a healthy engine -/

/-- No storage call is cut off or raises for a reason of its own. -/
def Healthy (w : World V) : Prop := ∀ luck ∈ w.luck, luck.fate = .proceeds

theorem deleteMany_ok_iff {keys : List Key} {s : Engine V} :
    (∃ n s', Engine.deleteMany keys s = (.ok n, s')) ↔ ∀ k ∈ keys, ValidKey k := by
  constructor
  · rintro ⟨n, s', hrun⟩
    by_contra! hinvalid
    obtain ⟨e, s₁, hraises⟩ := collect_delete_error hinvalid s
    rw [Engine.deleteMany, run_bind_error hraises] at hrun
    cases hrun
  · intro hvalid
    obtain ⟨l, s', hrun⟩ := deleteAll_ok hvalid s
    exact ⟨l.count true, s', run_bind_ok hrun _⟩

theorem invalidateTags_ok_iff {tags : List Tag} {s : Engine V} :
    (∃ n s', Engine.invalidateTags tags s = (.ok n, s')) ↔ TagsFit tags := by
  constructor
  · rintro ⟨n, s', hrun⟩
    rw [Engine.invalidateTags, bind_eq_ok] at hrun
    obtain ⟨normalized, s₁, hnormalized, -⟩ := hrun
    exact (normalizeTags_ok hnormalized).2.2
  · intro hfit
    exact ⟨_, _, run_bind_ok (normalizeTags_fit hfit s) _⟩

namespace Ingestor

/-- A call that an engine takes whatever it holds, or not at all. -/
theorem removeAll_ok_iff {items : List String} {call : EngineM V ℕ} {P : Prop}
    (hcall : ∀ s, (∃ n s', call s = (.ok n, s')) ↔ P) (hnil : items = [] → P) (hw : Healthy w) :
    ((∃ n w', g.removeAll items call w = (.ok n, w')) ↔ P) ∧
      ∀ n w', g.removeAll items call w = (.ok n, w') → Healthy w' := by
  unfold removeAll
  by_cases hitems : items = []
  · rw [if_pos hitems]
    refine ⟨⟨fun _ => hnil hitems, fun _ => ⟨0, w, rfl⟩⟩, ?_⟩
    intro n w' hrun
    obtain ⟨-, rfl⟩ := Prod.mk.inj hrun
    exact hw
  · rw [if_neg hitems]
    have hfate : (w.luck.headD Luck.calm).fate = .proceeds := by
      cases hluck : w.luck with
      | nil => rfl
      | cons luck rest => exact hw luck (by simp [hluck])
    have hrun : g.storageCall call w = onEngine call (g.nextLuck w).2 := by
      rw [storageCall, run_bind_ok (show g.nextLuck w = (.ok .proceeds, (g.nextLuck w).2) by
        rw [← hfate]; rfl)]
    have hhealthy : Healthy (g.nextLuck w).2 := fun luck hl => hw luck (List.mem_of_mem_tail hl)
    rw [hrun]
    constructor
    · rw [← hcall (g.nextLuck w).2.engine]
      unfold onEngine
      rcases hc : call (g.nextLuck w).2.engine with ⟨e | n, s'⟩ <;> simp
    · intro n w' hend
      unfold onEngine at hend
      rcases hc : call (g.nextLuck w).2.engine with ⟨e | m, s'⟩ <;> rw [hc] at hend <;>
        obtain ⟨hr, rfl⟩ := Prod.mk.inj hend
      · cases hr
      · exact hhealthy

/-- On a healthy engine an event is applied when its closure is one that the engine takes. -/
theorem applyEvent_ok_iff {closure : Closure} (hclosure : g.closureOf event = .ok closure)
    (hw : Healthy w) : (∃ r w', g.applyEvent event w = (.ok r, w')) ↔
      (∀ k ∈ closure.keys, ValidKey k) ∧ TagsFit closure.tags := by
  have hkeys : ((∃ n w', g.removeAll closure.keys (Engine.deleteMany closure.keys) w = (.ok n, w')) ↔
      ∀ k ∈ closure.keys, ValidKey k) ∧ ∀ n w',
        g.removeAll closure.keys (Engine.deleteMany closure.keys) w = (.ok n, w') → Healthy w' :=
    removeAll_ok_iff (fun _ => deleteMany_ok_iff) (fun hnil => by simp [hnil]) hw
  have htags : ∀ u : World V, Healthy u →
      ((∃ n w', g.removeAll closure.tags (Engine.invalidateTags closure.tags) u = (.ok n, w')) ↔
        TagsFit closure.tags) := fun _ hu =>
    (removeAll_ok_iff (fun _ => invalidateTags_ok_iff) (fun hnil => by simp [hnil, TagsFit]) hu).1
  have hrun : g.applyEvent event w = (do
      let invalidatedKeys ← g.removeAll closure.keys (Engine.deleteMany closure.keys)
      let invalidatedTags ← g.removeAll closure.tags (Engine.invalidateTags closure.tags)
      pure ⟨.processed, event.eventId, event.position, invalidatedKeys, invalidatedTags,
        closure.keys.length - closure.seeds.length, false, none⟩ : EventM V EventResult) w := by
    rw [applyEvent, hclosure]
    rfl
  rw [hrun]
  constructor
  · rintro ⟨r, w', hok⟩
    rw [bind_eq_ok] at hok
    obtain ⟨n, w₁, hdeleted, hok⟩ := hok
    rw [bind_eq_ok] at hok
    obtain ⟨m, w₂, hdropped, -⟩ := hok
    have hw₁ : Healthy w₁ := hkeys.2 n w₁ hdeleted
    exact ⟨hkeys.1.mp ⟨n, w₁, hdeleted⟩, (htags w₁ hw₁).mp ⟨m, w₂, hdropped⟩⟩
  · rintro ⟨hvalid, hfit⟩
    obtain ⟨n, w₁, hdeleted⟩ := hkeys.1.mpr hvalid
    obtain ⟨m, w₂, hdropped⟩ := (htags w₁ (hkeys.2 n w₁ hdeleted)).mpr hfit
    exact ⟨_, w₂, by rw [run_bind_ok hdeleted, run_bind_ok hdropped]; rfl⟩

theorem applyOrQueue_applied_iff {raw : ChangeEvent}
    (hprepared : g.schemas.prepare g.py raw = .ok event) :
    (∃ r w', g.applyOrQueue raw w = (.ok (r, true), w')) ↔
      ∃ r w', g.applyEvent event w = (.ok r, w') := by
  have happly : g.prepareAndApply raw w = g.applyEvent event w := by
    rw [prepareAndApply, hprepared]
    rfl
  constructor
  · rintro ⟨r, w', hrun⟩
    obtain ⟨x, hx, -⟩ | ⟨f, w₁, -, ⟨-, hres, -⟩ | ⟨-, ⟨f', -, hres⟩ | ⟨-, x, -, hres⟩⟩⟩ :=
      applyOrQueue_cases hrun
    · exact ⟨x, w', happly ▸ hx⟩
    · cases hres
    · cases hres
    · cases hres
  · rintro ⟨r, w', hrun⟩
    rcases hend : g.applyOrQueue raw w with ⟨res, w₁⟩
    obtain ⟨x, -, rfl⟩ | ⟨f, w₂, hraises, -⟩ := applyOrQueue_cases hend
    · exact ⟨x, w₁, rfl⟩
    · rw [happly, hrun] at hraises
      cases hraises

/-! ## Limits of the storage -/

/-- The keys and tags that the matching rules render fit the storage: no key is longer than 1024
characters under its namespace, no tag is longer than 256 bytes, and there are 100 tags at most. -/
structure Storable (g : Ingestor V) (event : ChangeEvent) : Prop where
  keys : ∀ keys tags, g.Renders event keys tags → ∀ k ∈ keys, k.length ≤ 1024
  tags : ∀ keys tags, g.Renders event keys tags → ∀ t ∈ tags, t.utf8ByteSize ≤ 256
  few : {t | ∃ keys tags, g.Renders event keys tags ∧ t ∈ tags}.encard ≤ 100

theorem qualify_ne_empty (n : VersionedNamespace) (key : Key) (version : ℕ) :
    n.qualify key version ≠ "" := by
  intro h
  have hlist := congrArg String.toList h
  simp [VersionedNamespace.qualify] at hlist

theorem render_ok {py : Python} {rule : EventRule} {rendered : List Key × List Tag}
    (h : rule.render py event = .ok rendered) :
    (∀ key ∈ rendered.1, key ≠ "" ∧ key.utf8ByteSize ≤ 1024) ∧ ∀ tag ∈ rendered.2, tag ≠ "" := by
  unfold EventRule.render at h
  cases hkeys : rule.keyTemplates.mapM (renderTemplate py event.context) with
  | error e => simp [hkeys, bind, Except.bind] at h
  | ok keys =>
    cases htags : rule.tagTemplates.mapM (renderTemplate py event.context) with
    | error e => simp [hkeys, htags, bind, Except.bind] at h
    | ok tags =>
      simp only [hkeys, htags, bind, Except.bind] at h
      split_ifs at h with hk ht
      obtain rfl := Except.ok.inj h
      simp only [List.any_eq_true, Bool.or_eq_true, decide_eq_true_eq, not_exists, not_and,
        not_or, not_lt] at hk ht
      exact ⟨hk, fun tag htag => (ht tag htag).1⟩

theorem length_le_utf8ByteSize (text : String) : text.length ≤ text.utf8ByteSize := by
  have hlist : ∀ l : List Char, l.length ≤ l.utf8Encode.size := by
    intro l
    induction l with
    | nil => exact Nat.zero_le _
    | cons ch l ih =>
      have hch : 0 < [ch].utf8Encode.size := by
        rw [List.utf8Encode_singleton, List.size_toByteArray, String.length_utf8EncodeChar]
        exact Char.utf8Size_pos ch
      rw [List.utf8Encode_cons, ByteArray.size_append, List.length_cons]
      omega
  have htext := hlist text.toList
  rw [String.length_toList] at htext
  calc text.length ≤ text.toList.utf8Encode.size := htext
    _ = (String.ofList text.toList).utf8ByteSize := rfl
    _ = text.utf8ByteSize := by rw [String.ofList_toList]

theorem ne_empty_of_qualified {rule : EventRule} {rendered : List Key} {k : Key}
    (h : ∀ key ∈ rendered, key ≠ "") (hk : k ∈ g.qualified rule rendered) : k ≠ "" := by
  unfold qualified at hk
  split at hk
  · exact h k hk
  · rename_i n hn
    obtain ⟨key, -, hkey⟩ := List.mem_flatMap.mp hk
    unfold VersionedNamespace.invalidationKeys at hkey
    split at hkey
    · rw [List.mem_singleton.mp hkey]
      exact qualify_ne_empty n key _
    · obtain ⟨version, -, rfl⟩ := List.mem_map.mp hkey
      exact qualify_ne_empty n key version
    · obtain ⟨version, -, rfl⟩ := List.mem_map.mp hkey
      exact qualify_ne_empty n key version

/-- The keys of a closure are valid when the rendered ones are not too long: what the graph adds
was checked when it was added. -/
theorem closure_keys_valid {b : GraphBounds} {calls : List (Key × Key)}
    (hgraph : g.graph = Dependencies.builtGraph b calls) {closure : Closure}
    (hclosure : g.closureOf event = .ok closure) :
    (∀ k ∈ closure.keys, ValidKey k) ↔
      ∀ keys tags, g.Renders event keys tags → ∀ k ∈ keys, k.length ≤ 1024 := by
  obtain ⟨seeds, tags, hg, he, -⟩ := closureOf_ok hclosure
  obtain ⟨hseeds, -⟩ := gather_renders hg
  constructor
  · intro hvalid keys rtags hr k hk
    have hmem : k ∈ closure.keys :=
      (expand_spec he k).mpr ⟨k, (hseeds k).mpr ⟨keys, rtags, hr, hk⟩, .refl⟩
    exact not_lt.mp fun hlong => hvalid k hmem (.inr hlong)
  · intro hshort k hk
    obtain ⟨seed, hseed, hpath⟩ := (expand_spec he k).mp hk
    rcases hpath.cases_tail with rfl | ⟨x, -, hedge⟩
    · obtain ⟨keys, rtags, hr, hmem⟩ := (hseeds k).mp hseed
      have hlength := hshort keys rtags hr k hmem
      obtain ⟨rule, -, -, rendered, hrender, rfl⟩ := hr
      have hne := ne_empty_of_qualified (fun key hkey => ((render_ok hrender).1 key hkey).1) hmem
      rintro (hempty | hlong)
      · exact hne hempty
      · exact absurd hlong (not_lt.mpr hlength)
    · have hchecked : validateCacheKey k = .ok () := by
        rw [hgraph] at hedge
        exact Dependencies.valid_of_edge_built x k (Dependencies.mem_dependents.mp hedge)
      have hsize : ¬(k = "" ∨ 1024 < k.utf8ByteSize) := by
        unfold validateCacheKey raiseIf at hchecked
        split_ifs at hchecked with hbad
        exact hbad
      rintro (hempty | hlong)
      · exact hsize (.inl hempty)
      · exact hsize (.inr (hlong.trans_le (length_le_utf8ByteSize k)))

theorem closure_tags_fit {closure : Closure} (hclosure : g.closureOf event = .ok closure) :
    TagsFit closure.tags ↔
      (∀ keys tags, g.Renders event keys tags → ∀ t ∈ tags, t.utf8ByteSize ≤ 256) ∧
        {t | ∃ keys tags, g.Renders event keys tags ∧ t ∈ tags}.encard ≤ 100 := by
  obtain ⟨seeds, tags, hg, -, htags⟩ := closureOf_ok hclosure
  obtain ⟨-, hrendered⟩ := gather_renders hg
  have hmem : ∀ t, t ∈ closure.tags ↔
      ∃ keys rtags, g.Renders event keys rtags ∧ t ∈ rtags := by
    intro t
    rw [htags, List.mem_insertionSort, List.mem_dedup]
    exact hrendered t
  have hcard : {t | ∃ keys rtags, g.Renders event keys rtags ∧ t ∈ rtags}.encard =
      closure.tags.length := by
    have hset : {t | ∃ keys rtags, g.Renders event keys rtags ∧ t ∈ rtags} =
        {t | t ∈ closure.tags} := by
      ext t
      exact (hmem t).symm
    rw [hset, htags]
    exact DependencyGraph.encard_of_nodup
      ((List.perm_insertionSort _ _).nodup_iff.mpr (List.nodup_dedup tags))
  rw [hcard]
  constructor
  · rintro ⟨hlength, hall⟩
    refine ⟨fun keys rtags hr t ht => ?_, by exact_mod_cast hlength⟩
    exact (hall t ((hmem t).mpr ⟨keys, rtags, hr, ht⟩)).2
  · rintro ⟨hshort, hfew⟩
    refine ⟨by exact_mod_cast hfew, fun t ht => ?_⟩
    obtain ⟨keys, rtags, hr, htr⟩ := (hmem t).mp ht
    refine ⟨?_, hshort keys rtags hr t htr⟩
    obtain ⟨rule, -, -, rendered, hrender, -⟩ := hr
    exact (render_ok hrender).2 t htr

end Ingestor

/-- An event whose closure was computed is applied to a healthy engine, and not queued, exactly
when the storage takes the keys and tags that its rules render. -/
theorem closure_applied_iff (b : GraphBounds) (calls : List (Key × Key))
    (hgraph : g.graph = Dependencies.builtGraph b calls) {closure : Ingestor.Closure}
    (hclosure : g.closureOf event = .ok closure) (hw : Healthy w) :
    ((∃ r w', g.applyEvent event w = (.ok r, w')) ↔ g.Storable event) ∧
    ∀ raw, g.schemas.prepare g.py raw = .ok event →
      ((∃ r w', g.applyOrQueue raw w = (.ok (r, true), w')) ↔ g.Storable event) := by
  have happly : (∃ r w', g.applyEvent event w = (.ok r, w')) ↔ g.Storable event := by
    rw [Ingestor.applyEvent_ok_iff hclosure hw, Ingestor.closure_keys_valid hgraph hclosure,
      Ingestor.closure_tags_fit hclosure]
    exact ⟨fun ⟨hkeys, htags, hfew⟩ => ⟨hkeys, htags, hfew⟩,
      fun h => ⟨h.keys, h.tags, h.few⟩⟩
  exact ⟨happly, fun raw hprepared => (Ingestor.applyOrQueue_applied_iff hprepared).trans happly⟩

/-- An ingestor whose rule removes a product and takes a tag from the payload. -/
def tagIngestor : Ingestor String := { smallIngestor with
  rules := [⟨"products", ["product"], ["{payload.tag}"], [], [], [], [], none⟩]
  graph := Dependencies.builtGraph ⟨10, 10, 10, 4, 10, by decide⟩ []
  known := by simp }

def tagEvent (tag : String) : ChangeEvent :=
  ⟨"e1", "db", "products", 7, "update", [("tag", .str tag)], 0, none, none⟩

/-- The product is in the cache. -/
def tagWorld : World String :=
  { Process.init.world with
    engine := (Engine.put Engine.smallConfig "product" "tea" none none [] none false Engine.init).2 }

theorem tagWorld_healthy : Healthy tagWorld := by
  intro luck hluck
  exact absurd hluck List.not_mem_nil

theorem tea_storable : tagIngestor.Storable (tagEvent "tea") := by
  have hsome : (tagIngestor.closureOf (tagEvent "tea")).toOption.isSome = true := by
    decide +kernel
  have hrun : (tagIngestor.applyEvent (tagEvent "tea") tagWorld).1 =
      .ok ⟨.processed, "e1", 7, 1, 0, 0, false, none⟩ := by
    decide +kernel
  cases hclosure : tagIngestor.closureOf (tagEvent "tea") with
  | error e =>
    rw [hclosure] at hsome
    cases hsome
  | ok closure =>
    exact (closure_applied_iff ⟨10, 10, 10, 4, 10, by decide⟩ [] rfl hclosure
      tagWorld_healthy).1.mp ⟨_, _, Prod.ext hrun rfl⟩

/-- A tag of 257 bytes. -/
def longTag : String := String.ofList (List.replicate 257 'a')

/-- The closure of an event is computed and the product is deleted, but the engine refuses the
tag, so the event goes to the queue although half of it was applied. -/
theorem long_tag_half_applied :
    (tagIngestor.closureOf (tagEvent longTag)).toOption.isSome = true ∧
    Healthy tagWorld ∧ (tagWorld.engine.entries.get? "product").isSome = true ∧
    (tagIngestor.applyEvent (tagEvent longTag) tagWorld).1 =
      .error (.storage (valueError "tags must contain between 1 and 256 UTF-8 bytes")) ∧
    (tagIngestor.applyEvent (tagEvent longTag) tagWorld).2.engine.entries.get? "product" = none ∧
    (tagIngestor.applyOrQueue (tagEvent longTag) tagWorld).1.toOption.map (·.1.outcome) =
      some .deadLetter := by
  refine ⟨?_, tagWorld_healthy, ?_, ?_, ?_, ?_⟩
  · decide +kernel
  · decide +kernel
  · decide +kernel
  · rw [← Option.isNone_iff_eq_none]
    decide +kernel
  · decide +kernel

end Events
end MegaCache
