import MegaCache.Events.Types
import MegaCache.Lib.Search

/-!
# What an event invalidates

Schema preparation, rule matching, templates, namespaces and the dependency graph, up to
the keys and tags that `_apply` hands to the storage.  `closureOf_spec` says which these
are: everything the graph reaches from a key that a matching rule renders, and every tag
that a matching rule renders.
-/

namespace MegaCache
namespace Events

/-! ## Schemas -/

namespace SchemaRegistry

def candidates (reg : SchemaRegistry) (s : SchemaIdentifier) : List Migration :=
  (reg.migrations.filter fun m =>
    m.schemaName = s.name && m.fromVersion = s.version &&
      (reg.readers.filter (·.name = s.name)).any fun r =>
        r.minimumVersion ≤ m.toVersion && m.toVersion ≤ r.maximumVersion).insertionSort
    (·.toVersion ≤ ·.toVersion)

def prepare (py : Python) (reg : SchemaRegistry) (event : ChangeEvent) :
    Except Failure ChangeEvent :=
  match event.schemaId with
  | none => pure event
  | some text => do
    let s ← SchemaIdentifier.parse py text
    if (reg.readers.filter (·.name = s.name)).any (·.accepts s) then pure event
    else
      match reg.candidates s with
      | migration :: _ => do
        match ← migration.migrate event.payload with
        | .obj fields =>
          pure { event with
            payload := fields
            schemaId := some (SchemaIdentifier.text ⟨s.name, migration.toVersion⟩) }
        | _ => throw (.schemaCompatibilityError "schema migration must return an object")
      | [] =>
        if (reg.readers.filter (·.name = s.name)).isEmpty then
          throw (.schemaCompatibilityError ("no reader is registered for schema '" ++ s.name ++ "'"))
        else
          throw (.schemaCompatibilityError
            ("schema " ++ s.text ++ " is outside compatible reader ranges"))

end SchemaRegistry

/-! ## Templates -/

/-- A piece of a template: literal text, or the dotted name of a field. -/
inductive Segment
  | text (ch : List Char)
  | field (name : List Char)
deriving DecidableEq, Repr

/-- The characters of a name in `_TEMPLATE_FIELD`. -/
def fieldChar (ch : Char) : Bool := ch.isAlphanum || ch ∈ ['_', '.', '-']

/-- The segments so far and, after an opening brace, the name read since, both backwards. -/
structure Scan where
  done : List Segment
  name : Option (List Char)

/-- A brace that turned out to open no field is literal text, with what followed it. -/
def Scan.literal (s : Scan) : List Segment :=
  match s.name with
  | none => s.done
  | some name => .text (Char.ofNat 123 :: name.reverse) :: s.done

def Scan.step (s : Scan) (ch : Char) : Scan :=
  if ch = Char.ofNat 123 then ⟨s.literal, some []⟩
  else
    match s.name with
    | none => ⟨.text [ch] :: s.done, none⟩
    | some name =>
      if ch = Char.ofNat 125 ∧ name ≠ [] then ⟨.field name.reverse :: s.done, none⟩
      else if fieldChar ch then ⟨s.done, some (ch :: name)⟩
      else ⟨.text [ch] :: s.literal, none⟩

/-- The matches of `_TEMPLATE_FIELD` in a template and the text between them. -/
def segments (template : String) : List Segment :=
  (template.toList.foldl Scan.step ⟨[], none⟩).literal.reverse

/-- The value at a path of names. -/
def resolve : Json → List String → Option Json
  | value, [] => some value
  | .obj fields, component :: path => (fields.lookup component).bind (resolve · path)
  | _, _ :: _ => none

/-- `str(value)` of a scalar. -/
def scalarText (py : Python) : Json → Option String
  | .str text => some text
  | .int n => some (toString n)
  | .bool b => some (if b then "True" else "False")
  | .float x => some (py.floatStr x)
  | .nonFinite .nan => some "nan"
  | .nonFinite .infinity => some "inf"
  | .nonFinite .minusInfinity => some "-inf"
  | .null | .arr _ | .obj _ => none

def replaceField (py : Python) (context : Json) (name : List Char) : Except Failure String :=
  match resolve context ((name.splitOn '.').map String.ofList) with
  | none =>
    throw (.eventError ("event template field '" ++ String.ofList name ++ "' is missing"))
  | some value =>
    match scalarText py value with
    | none =>
      throw (.eventError ("event template field '" ++ String.ofList name ++ "' must be scalar"))
    | some text => pure text

def renderTemplate (py : Python) (context : Json) (template : String) : Except Failure String := do
  let parts ← (segments template).mapM fun
    | .text ch => pure (String.ofList ch)
    | .field name => replaceField py context name
  pure (String.join parts)

def ChangeEvent.context (event : ChangeEvent) : Json :=
  .obj [("event_id", .str event.eventId), ("source", .str event.source),
    ("stream", .str event.stream), ("position", .int event.position),
    ("operation", .str event.operation), ("schema_id", .str (event.schemaId.getD "")),
    ("payload", .obj event.payload)]

/-! ## Rules -/

namespace EventRule

/-- `EventRule.matches`. -/
def «matches» (py : Python) (rule : EventRule) (event : ChangeEvent) : Except Failure Bool := do
  let schemaName ← match event.schemaId with
    | none => pure none
    | some text => do
      let s ← SchemaIdentifier.parse py text
      pure (some s.name)
  pure ((rule.sources = [] || event.source ∈ rule.sources) &&
    (rule.streams = [] || event.stream ∈ rule.streams) &&
    (rule.operations = [] || event.operation ∈ rule.operations) &&
    (rule.schemaNames = [] || schemaName.any (· ∈ rule.schemaNames)))

def render (py : Python) (rule : EventRule) (event : ChangeEvent) :
    Except Failure (List Key × List Tag) := do
  let keys ← rule.keyTemplates.mapM (renderTemplate py event.context)
  let tags ← rule.tagTemplates.mapM (renderTemplate py event.context)
  if keys.any fun key => key = "" || 1024 < key.utf8ByteSize then
    throw (.eventError "cache key must contain 1 to 1024 UTF-8 bytes")
  if tags.any fun tag => tag = "" || 1024 < tag.utf8ByteSize then
    throw (.eventError "rendered tag is empty or too long")
  pure (keys, tags)

end EventRule

/-- `DependencyGraph.expand`.  The seeds come from a set; the order in which they are
queued does not matter for what is returned. -/
def DependencyGraph.expand (graph : DependencyGraph) (seeds : List Key) :
    Except Failure (List Key) :=
  match Search.explore graph.dependents graph.maxDepth graph.maxInvalidationNodes []
      (seeds.map (·, 0)) with
  | .ok visited => pure (visited.insertionSort (· ≤ ·))
  | .error .nodes => throw (.dependencyGraphError "dependency invalidation node limit exceeded")
  | .error .depth => throw (.dependencyGraphError "dependency invalidation depth limit exceeded")

/-- An `EventIngestor` with its storage, checkpoint store and clock. -/
structure Ingestor (V : Type) where
  py : Python
  limits : Limits
  rules : List EventRule
  graph : DependencyGraph
  schemas : SchemaRegistry
  namespaces : List VersionedNamespace
  engine : EngineConfig V
  clock : ℕ → ℚ
  known : ∀ rule ∈ rules, ∀ name ∈ rule.namespaceName,
    ∃ n, namespaces.find? (·.name = name) = some n
  clock_mono : Monotone clock

namespace Ingestor

variable {V : Type} (g : Ingestor V)

/-- The keys of a rule under its namespace. -/
def qualified (rule : EventRule) (keys : List Key) : List Key :=
  match rule.namespaceName.bind fun name => g.namespaces.find? (·.name = name) with
  | none => keys
  | some n => keys.flatMap n.invalidationKeys

/-- The loop of `_apply` over the rules. -/
def gather (event : ChangeEvent) : List EventRule → Except Failure (List Key × List Tag)
  | [] => pure ([], [])
  | rule :: rules => do
    if ← rule.matches g.py event then do
      let rendered ← rule.render g.py event
      let others ← gather event rules
      pure (g.qualified rule rendered.1 ++ others.1, rendered.2 ++ others.2)
    else gather event rules

/-- What `_apply` of a prepared event hands to the storage: the rendered keys, what they
expand to, and the tags. -/
structure Closure where
  seeds : List Key
  keys : List Key
  tags : List Tag

def closureOf (event : ChangeEvent) : Except Failure Closure := do
  let (keys, tags) ← g.gather event g.rules
  let expanded ← g.graph.expand keys
  pure ⟨keys.dedup, expanded, tags.dedup.insertionSort (· ≤ ·)⟩

/-! ## Its meaning -/

/-- A matching rule renders these keys and tags. -/
def Renders (event : ChangeEvent) (keys : List Key) (tags : List Tag) : Prop :=
  ∃ rule ∈ g.rules, rule.matches g.py event = .ok true ∧
    ∃ rendered, rule.render g.py event = .ok (rendered, tags) ∧ keys = g.qualified rule rendered

/-- The full closure of an event: it can be prepared, every rule can be matched and
rendered, the keys are all that depends on a rendered key, and the tags are those
rendered. -/
structure IsClosure (event : ChangeEvent) (keys : List Key) (tags : List Tag) : Prop where
  exists_prepared : ∃ prepared, g.schemas.prepare g.py event = .ok prepared ∧
    (∀ rule ∈ g.rules, rule.matches g.py prepared = .ok false ∨
      rule.matches g.py prepared = .ok true ∧ ∃ r, rule.render g.py prepared = .ok r) ∧
    (∀ k, k ∈ keys ↔ Search.Reaches g.graph.dependents
      {seed | ∃ rendered rtags, g.Renders prepared rendered rtags ∧ seed ∈ rendered} k) ∧
    ∀ t, t ∈ tags ↔ ∃ rendered rtags, g.Renders prepared rendered rtags ∧ t ∈ rtags

variable {g}

theorem gather_spec {event : ChangeEvent} {rules : List EventRule} {keys : List Key}
    {tags : List Tag} (h : g.gather event rules = .ok (keys, tags)) :
    (∀ rule ∈ rules, rule.matches g.py event = .ok false ∨
      rule.matches g.py event = .ok true ∧ ∃ r, rule.render g.py event = .ok r) ∧
    (∀ k, k ∈ keys ↔ ∃ rule ∈ rules, rule.matches g.py event = .ok true ∧
      ∃ r, rule.render g.py event = .ok r ∧ k ∈ g.qualified rule r.1) ∧
    ∀ t, t ∈ tags ↔ ∃ rule ∈ rules, rule.matches g.py event = .ok true ∧
      ∃ r, rule.render g.py event = .ok r ∧ t ∈ r.2 := by
  induction rules generalizing keys tags with
  | nil =>
    obtain ⟨rfl, rfl⟩ : [] = keys ∧ [] = tags := by simpa [gather, pure, Except.pure] using h
    simp
  | cons rule rules ih =>
    simp only [gather] at h
    cases hm : rule.matches g.py event with
    | error e => simp [hm, bind, Except.bind] at h
    | ok b =>
      cases b with
      | false =>
        simp only [hm, bind, Except.bind, Bool.false_eq_true, ↓reduceIte] at h
        obtain ⟨hall, hkeys, htags⟩ := ih h
        refine ⟨?_, fun k => ?_, fun t => ?_⟩
        · intro r hr
          rcases List.mem_cons.mp hr with rfl | hr
          · exact .inl hm
          · exact hall r hr
        · simp [hkeys, hm]
        · simp [htags, hm]
      | true =>
        cases hr : rule.render g.py event with
        | error e => simp [hm, hr, bind, Except.bind] at h
        | ok rendered =>
          cases ho : g.gather event rules with
          | error e => simp [hm, hr, ho, bind, Except.bind] at h
          | ok others =>
            obtain ⟨hall, hkeys, htags⟩ := ih ho
            obtain ⟨rfl, rfl⟩ : g.qualified rule rendered.1 ++ others.1 = keys ∧
                rendered.2 ++ others.2 = tags := by
              simpa [hm, hr, ho, bind, Except.bind, pure, Except.pure] using h
            refine ⟨?_, fun k => ?_, fun t => ?_⟩
            · intro r hr'
              rcases List.mem_cons.mp hr' with rfl | hr'
              · exact .inr ⟨hm, rendered, hr⟩
              · exact hall r hr'
            · simp only [List.mem_append, hkeys, List.mem_cons, exists_eq_or_imp, hm, hr,
                Except.ok.injEq, exists_eq_left', true_and]
            · simp only [List.mem_append, htags, List.mem_cons, exists_eq_or_imp, hm, hr,
                Except.ok.injEq, exists_eq_left', true_and]

theorem expand_spec {graph : DependencyGraph} {seeds keys : List Key}
    (h : graph.expand seeds = .ok keys) (k : Key) :
    k ∈ keys ↔ Search.Reaches graph.dependents {v | v ∈ seeds} k := by
  unfold DependencyGraph.expand at h
  split at h
  · rename_i visited hv
    obtain rfl : visited.insertionSort (· ≤ ·) = keys := by simpa [pure, Except.pure] using h
    rw [List.mem_insertionSort, Search.mem_explore hv]
  · simp [throw, throwThe, MonadExceptOf.throw] at h
  · simp [throw, throwThe, MonadExceptOf.throw] at h

/-- The gathered keys and tags are those that the matching rules render. -/
theorem gather_renders {event : ChangeEvent} {keys : List Key} {tags : List Tag}
    (h : g.gather event g.rules = .ok (keys, tags)) :
    (∀ k, k ∈ keys ↔ ∃ rendered rtags, g.Renders event rendered rtags ∧ k ∈ rendered) ∧
    ∀ t, t ∈ tags ↔ ∃ rendered rtags, g.Renders event rendered rtags ∧ t ∈ rtags := by
  obtain ⟨-, hkeys, htags⟩ := gather_spec h
  refine ⟨fun k => ?_, fun t => ?_⟩
  · rw [hkeys]
    constructor
    · rintro ⟨rule, hrule, hm, r, hr, hk⟩
      exact ⟨_, r.2, ⟨rule, hrule, hm, r.1, hr, rfl⟩, hk⟩
    · rintro ⟨_, rtags, ⟨rule, hrule, hm, rendered, hr, rfl⟩, hk⟩
      exact ⟨rule, hrule, hm, _, hr, hk⟩
  · rw [htags]
    constructor
    · rintro ⟨rule, hrule, hm, r, hr, ht⟩
      exact ⟨_, r.2, ⟨rule, hrule, hm, r.1, hr, rfl⟩, ht⟩
    · rintro ⟨_, rtags, ⟨rule, hrule, hm, rendered, hr, rfl⟩, ht⟩
      exact ⟨rule, hrule, hm, _, hr, ht⟩

theorem closureOf_ok {event : ChangeEvent} {closure : Closure}
    (h : g.closureOf event = .ok closure) :
    ∃ keys tags, g.gather event g.rules = .ok (keys, tags) ∧
      g.graph.expand keys = .ok closure.keys ∧
      closure.tags = tags.dedup.insertionSort (· ≤ ·) := by
  simp only [closureOf] at h
  cases hg : g.gather event g.rules with
  | error e => simp [hg, bind, Except.bind] at h
  | ok gathered =>
    obtain ⟨keys, tags⟩ := gathered
    cases he : g.graph.expand keys with
    | error e => simp [hg, he, bind, Except.bind] at h
    | ok expanded =>
      obtain rfl : Closure.mk keys.dedup expanded (tags.dedup.insertionSort (· ≤ ·)) = closure := by
        simpa [hg, he, bind, Except.bind, pure, Except.pure] using h
      exact ⟨keys, tags, rfl, he, rfl⟩

/-- What `_apply` of a prepared event hands to the storage is the closure of the event. -/
theorem closureOf_spec {event prepared : ChangeEvent} {closure : Closure}
    (hp : g.schemas.prepare g.py event = .ok prepared) (h : g.closureOf prepared = .ok closure) :
    g.IsClosure event closure.keys closure.tags := by
  obtain ⟨keys, tags, hg, he, htags⟩ := closureOf_ok h
  obtain ⟨hkeys, hrendered⟩ := gather_renders hg
  refine ⟨prepared, hp, (gather_spec hg).1, fun k => ?_, fun t => ?_⟩
  · rw [expand_spec he]
    have hroots : {v | v ∈ keys} =
        {seed | ∃ rendered rtags, g.Renders prepared rendered rtags ∧ seed ∈ rendered} := by
      ext seed
      exact hkeys seed
    rw [hroots]
  · rw [htags, List.mem_insertionSort, List.mem_dedup]
    exact hrendered t

end Ingestor

end Events
end MegaCache
