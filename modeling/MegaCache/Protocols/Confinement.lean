import MegaCache.Controlplane.Backup
import MegaCache.Engine.Twins
import MegaCache.Protocols.SharedEntries

/-!
# Confinement to key prefixes

A handler asks for the permission that its call of the storage needs, for the keys that the call
takes.  A principal with key prefixes and without administration therefore only reaches keys
inside its prefixes, and what it gets back does not depend on the values outside.
-/

namespace MegaCache.Protocols

open Engine
open Auth (Principal Permission)

/-- The permissions for a method that only some storages have. -/
def Method.needs : Method → List Permission
  | .fetch => [.read, .write]
  | .explain | .invalidationCursor => [.read]
  | .ingestEvent => [.invalidate]
  | .ownership | .topology | .status | .origins | .recommendations | .simulate | .experimentStatus
  | .eventStatus | .retryEvents => [.admin]

/-- The permissions for a call, required for each of its keys. -/
def StorageCall.needs : StorageCall → List Permission
  | .get _ | .mget _ | .existsCount _ | .ttl _ => [.read]
  | .put _ _ _ | .mset _ | .delete _ | .deleteMany _ | .expire _ _ => [.write]
  | .acquireLease _ => [.read, .write]
  | .invalidateTags _ => [.invalidate]
  | .flush | .size | .stats => [.admin]
  | .extension method _ _ => method.needs

/-- A principal that has key prefixes and may at most read and write. -/
structure Confined (p : Principal) : Prop where
  prefixes : p.keyPrefixes ≠ []
  permissions : p.permissions ⊆ {.read, .write}

/-- The keys that start with one of the prefixes. -/
def Inside (p : Principal) (key : Key) : Prop := ∃ start ∈ p.keyPrefixes, Auth.startsWith key start

/-- The principal has the permissions that a call needs for its keys. -/
def Permitted (p : Principal) (call : StorageCall) : Prop :=
  ∀ permission ∈ call.needs, p.allows permission call.keys

variable {p : Principal} {call : StorageCall} {ε α β ρ : Type}

theorem StorageCall.needs_ne_nil (call : StorageCall) : ∃ permission, permission ∈ call.needs := by
  cases call with
  | extension method keys arguments => cases method <;> simp [needs, Method.needs]
  | _ => simp [needs]

/-- For a confined principal `allows` says that the permission is there and the keys are inside. -/
theorem Confined.allows_iff (hp : Confined p) {permission : Permission} {keys : List Key} :
    p.allows permission keys ↔ permission ∈ p.permissions ∧ ∀ key ∈ keys, Inside p key := by
  have hadmin : Permission.admin ∉ p.permissions := by
    intro h
    have := hp.permissions h
    simp at this
  unfold Principal.allows Inside
  by_cases hperm : permission ∈ p.permissions
  · simp [hadmin, hperm, hp.prefixes]
  · simp [hadmin, hperm]

theorem Confined.not_admin (hp : Confined p) {keys : List Key} : ¬p.allows .admin keys := by
  intro h
  have := hp.permissions (hp.allows_iff.mp h).1
  simp at this

theorem Confined.inside (hp : Confined p) (h : Permitted p call) : ∀ key ∈ call.keys, Inside p key := by
  obtain ⟨permission, hmem⟩ := call.needs_ne_nil
  exact (hp.allows_iff.mp (h permission hmem)).2

/-! ## Handlers ask before they call -/

/-- Every call of the handler, if there is one, is permitted. -/
def Guarded (p : Principal) (steps : α → Step ρ) (x : Except ε α) : Prop :=
  ∀ a, x = .ok a → ∀ call, (steps a).Calls call → Permitted p call

variable {steps : α → Step ρ}

theorem Guarded.error (e : ε) : Guarded p steps (.error e : Except ε α) := by
  intro a h
  cases h

theorem Guarded.bind {x : Except ε β} {f : β → Except ε α} (h : ∀ b, x = .ok b → Guarded p steps (f b)) :
    Guarded p steps (x >>= f) := by
  intro a ha
  obtain ⟨b, hb, hf⟩ := except_bind_ok.mp ha
  exact h b hb a hf

theorem Guarded.ite {c : Prop} [Decidable c] {x y : Except ε α} (hx : c → Guarded p steps x)
    (hy : ¬c → Guarded p steps y) : Guarded p steps (if c then x else y) := by
  split_ifs with h
  · exact hx h
  · exact hy h

theorem Step.calls_call {c : StorageCall} {next : StorageAnswer → Step ρ} :
    (Step.call c next).Calls call ↔ call = c ∨ ∃ a, (next a).Calls call := by
  constructor
  · intro h
    cases h with
    | here => exact .inl rfl
    | later h => exact .inr ⟨_, h⟩
  · rintro (rfl | ⟨a, h⟩)
    · exact .here
    · exact .later h

theorem Step.calls_reply {r : ρ} : ¬(Step.reply r).Calls call := by
  intro h
  cases h

/-! ## RESP -/

section Resp

open Resp

theorem allows_of_authorize {permission : Permission} {keys : List Key}
    (h : authorize p permission keys = .ok ()) : p.allows permission keys := by
  unfold authorize at h
  split_ifs at h with hallows
  exact hallows

theorem resp_answer (r : Result) : Guarded p id (answer r) := by
  rintro _ ⟨⟩ call hcall
  exact absurd hcall Step.calls_reply

theorem resp_one {c : StorageCall} {reply : StorageAnswer → Result} (h : Permitted p c) :
    Guarded p id (Resp.one c reply) := by
  rintro _ ⟨⟩ call hcall
  rcases Step.calls_call.mp hcall with rfl | ⟨a, hcall⟩
  · exact h
  · exact absurd hcall Step.calls_reply

/-- A call that needs one permission, after `_authorize` for it. -/
theorem authorized_one {c : StorageCall} {reply : StorageAnswer → Result} {permission : Permission}
    (h : authorize p permission c.keys = .ok ()) (hneeds : c.needs = [permission]) :
    Guarded p id (Resp.one c reply) := by
  refine resp_one fun needed hneeded => ?_
  rw [hneeds, List.mem_singleton] at hneeded
  rw [hneeded]
  exact allows_of_authorize h

/-- A call that needs to read and to write. -/
theorem authorized_both {c : StorageCall} {reply : StorageAnswer → Result}
    (hread : authorize p .read c.keys = .ok ()) (hwrite : authorize p .write c.keys = .ok ())
    (hneeds : c.needs = [.read, .write]) : Guarded p id (Resp.one c reply) := by
  refine resp_one fun needed hneeded => ?_
  rw [hneeds] at hneeded
  rcases List.mem_pair.mp hneeded with rfl | rfl
  · exact allows_of_authorize hread
  · exact allows_of_authorize hwrite

variable {args : List Bytes} (floats : Json.FloatText) (has : Method → Bool)

theorem guarded_ping : Guarded p id (ping args) :=
  .ite (fun _ => resp_answer _) fun _ => .bind fun _ _ => resp_answer _

theorem guarded_echo : Guarded p id (echo args) := .bind fun _ _ => resp_answer _

theorem guarded_get : Guarded p id (get p args floats) :=
  .bind fun _ _ => .bind fun _ h => authorized_one h rfl

theorem guarded_set : Guarded p id (set p args) := by
  refine .ite (fun _ => .error _) fun _ => .bind fun _ h => .ite (fun _ => ?_) fun _ => ?_
  · exact .bind fun _ _ => .bind fun _ _ => authorized_one h rfl
  · exact authorized_one h rfl

theorem guarded_mget : Guarded p id (mget p args floats) :=
  .ite (fun _ => .error _) fun _ => .bind fun _ h => authorized_one h rfl

theorem guarded_mset : Guarded p id (mset p args) :=
  .ite (fun _ => .error _) fun _ => .bind fun _ h => authorized_one h rfl

theorem guarded_delete : Guarded p id (delete p args) :=
  .ite (fun _ => .error _) fun _ => .bind fun _ h => authorized_one h rfl

theorem guarded_exists : Guarded p id («exists» p args) :=
  .ite (fun _ => .error _) fun _ => .bind fun _ h => authorized_one h rfl

theorem guarded_expire : Guarded p id (expire p args) :=
  .bind fun _ _ => .bind fun _ h => .bind fun _ _ => authorized_one h rfl

theorem guarded_ttl : Guarded p id (ttl p args) :=
  .bind fun _ _ => .bind fun _ h => authorized_one h rfl

theorem guarded_dbsize : Guarded p id (dbsize p args) :=
  .bind fun _ _ => .bind fun _ h => authorized_one h rfl

theorem guarded_flushdb : Guarded p id (flushdb p args) :=
  .bind fun _ _ => .bind fun _ h => authorized_one h rfl

/-- `_info` makes two calls, the second whatever the first returns. -/
theorem guarded_info (infoText : Stats → ℤ → Bytes) : Guarded p id (info p args infoText) := by
  refine .ite (fun _ => .error _) fun _ => .bind fun _ h => ?_
  rintro _ ⟨⟩ call hcall
  have hadmin : ∀ c : StorageCall, c.needs = [.admin] → c.keys = [] → Permitted p c := by
    intro c hneeds hkeys needed hneeded
    rw [hneeds, List.mem_singleton] at hneeded
    rw [hneeded, hkeys]
    exact allows_of_authorize h
  rcases Step.calls_call.mp hcall with rfl | ⟨a, hcall⟩
  · exact hadmin _ rfl rfl
  · rcases Step.calls_call.mp hcall with rfl | ⟨b, hcall⟩
    · exact hadmin _ rfl rfl
    · exact absurd hcall Step.calls_reply

theorem guarded_select : Guarded p id (select p args) :=
  .bind fun _ _ => .bind fun _ _ => .bind fun _ _ => resp_answer _

theorem guarded_client : Guarded p id (client p args) :=
  .bind fun _ _ => .ite (fun _ => resp_answer _) fun _ =>
    .ite (fun _ => resp_answer _) fun _ => .error _

theorem guarded_command : Guarded p id (command p) := .bind fun _ _ => resp_answer _

theorem guarded_hello : Guarded p id (hello p args) :=
  .bind fun _ _ => .bind fun _ _ => resp_answer _

theorem guarded_mcSet : Guarded p id (mcSet p args) :=
  .ite (fun _ => .error _) fun _ => .bind fun _ h => .bind fun _ _ => authorized_one h rfl

theorem guarded_mcLease : Guarded p id (mcLease p args floats) :=
  .ite (fun _ => .error _) fun _ => .bind fun _ _ => .bind fun _ hread => .bind fun _ hwrite =>
    authorized_both hread hwrite rfl

theorem guarded_mcInvalidate : Guarded p id (mcInvalidate p args) :=
  .ite (fun _ => .error _) fun _ => .bind fun _ h => .bind fun _ _ => authorized_one h rfl

/-- `_mc_topology` takes a key and asks for administration without it. -/
theorem guarded_mcTopology (hp : Confined p) : Guarded p id (mcTopology floats has p args) := by
  refine .ite (fun _ => .error _) fun _ => .bind fun _ h => ?_
  exact absurd (allows_of_authorize h) hp.not_admin

theorem guarded_mcStatus : Guarded p id (mcStatus floats has p args) :=
  .bind fun _ _ => .bind fun _ h =>
    .ite (fun _ => authorized_one h rfl) fun _ => authorized_one h rfl

theorem guarded_mcInvalidations (epoch : String) :
    Guarded p id (mcInvalidations floats has p args epoch) := by
  refine .ite (fun _ => .error _) fun _ => .bind fun _ h => ?_
  -- the cursor is read in one of three ways; what follows is the same
  refine .ite (fun _ => .ite (fun _ => ?_) fun _ => ?_) fun _ => ?_
  all_goals
    exact .bind fun _ _ => .ite (fun _ => authorized_one h rfl) fun _ => resp_answer _

theorem guarded_mcTraceparent : Guarded p id (mcTraceparent p args) :=
  .bind fun _ _ => .bind fun _ _ => .bind fun _ _ => resp_answer _

theorem guarded_mcFetch : Guarded p id (mcFetch floats has p args) :=
  .ite (fun _ => .error _) fun _ => .bind fun _ hread => .bind fun _ hwrite => .bind fun _ _ =>
    .bind fun _ _ => .bind fun _ _ => .bind fun _ _ => authorized_both hread hwrite rfl

theorem guarded_mcExplain : Guarded p id (mcExplain floats has p args) :=
  .bind fun _ _ => .bind fun _ h => .bind fun _ _ => authorized_one h rfl

theorem guarded_extended {permission : Permission} {method : Method} {absent : String}
    {arguments : Except String (List Json)} (h : method.needs = [permission]) :
    Guarded p id (Resp.extended floats has p permission method absent arguments) :=
  .bind fun _ hallowed => .bind fun _ _ => .bind fun _ _ => authorized_one hallowed h

theorem guarded_mcOrigins : Guarded p id (mcOrigins floats has p args) :=
  .bind fun _ _ => .bind fun _ h =>
    .ite (fun _ => authorized_one h rfl) fun _ => resp_answer _

theorem guarded_mcRecommendations : Guarded p id (mcRecommendations floats has p args) :=
  .ite (fun _ => .error _) fun _ => .bind fun _ h => .bind fun _ _ => .bind fun _ _ =>
    authorized_one h rfl

theorem guarded_mcPolicySimulate : Guarded p id (mcPolicySimulate floats has p args) :=
  .bind fun _ _ => .bind fun _ h => .bind fun _ _ => .bind fun _ _ => authorized_one h rfl

theorem guarded_mcExperiments : Guarded p id (mcExperiments floats has p args) :=
  .bind fun _ _ => guarded_extended floats has rfl

theorem guarded_mcEvent : Guarded p id (mcEvent floats has p args) :=
  .bind fun _ _ => guarded_extended floats has rfl

theorem guarded_mcEventStatus : Guarded p id (mcEventStatus floats has p args) :=
  .bind fun _ _ => guarded_extended floats has rfl

theorem guarded_mcEventRetry : Guarded p id (mcEventRetry floats has p args) :=
  .ite (fun _ => .error _) fun _ => guarded_extended floats has rfl

theorem guarded_control (site : Resp.Site) :
    Guarded p id ((site.control p args).map Step.reply) := by
  intro step h call hcall
  cases hcontrol : site.control p args with
  | error e => rw [hcontrol] at h; cases h
  | ok r =>
    rw [hcontrol] at h
    cases h
    exact absurd hcall Step.calls_reply

/-- Every command of a confined principal asks before it calls. -/
theorem guarded_execute (hp : Confined p) (site : Resp.Site) : Guarded p id (execute site p args) := by
  unfold execute
  split
  · exact .error _
  split
  · exact guarded_ping
  · exact guarded_echo
  · exact guarded_get _
  · exact guarded_set
  · exact guarded_mget _
  · exact guarded_mset
  · exact guarded_delete
  · exact guarded_exists
  · exact guarded_expire
  · exact guarded_ttl
  · exact guarded_dbsize
  · exact guarded_flushdb
  · exact guarded_info _
  · exact guarded_select
  · exact guarded_client
  · exact guarded_command
  · exact guarded_hello
  · exact guarded_mcSet
  · exact guarded_mcLease _
  · exact guarded_mcInvalidate
  · exact guarded_mcTopology _ _ hp
  · exact guarded_mcStatus _ _
  · exact guarded_mcFetch _ _
  · exact guarded_mcOrigins _ _
  · exact guarded_mcEvent _ _
  · exact guarded_mcEventStatus _ _
  · exact guarded_mcEventRetry _ _
  · exact guarded_mcInvalidations _ _ _
  · exact guarded_mcTraceparent
  · exact guarded_mcExplain _ _
  · exact guarded_mcRecommendations _ _
  · exact guarded_mcPolicySimulate _ _
  · exact guarded_mcExperiments _ _
  · exact .ite (fun _ => guarded_control site) fun _ => .error _

end Resp

/-! ## HTTP -/

section Http

open Http

theorem allows_of_authorized {permission : Permission} {keys : List Key}
    (h : authorized p permission keys = .ok ()) : p.allows permission keys := by
  unfold authorized at h
  split_ifs at h with hallows
  exact hallows

theorem http_one {c : StorageCall} {typeErrors : Bool} {reply : StorageAnswer → Response} (h : Permitted p c) :
    Guarded p Routed.step (Http.one typeErrors c reply) := by
  rintro _ ⟨⟩ call hcall
  rcases Step.calls_call.mp hcall with rfl | ⟨a, hcall⟩
  · exact h
  · exact absurd hcall Step.calls_reply

theorem routed_one {c : StorageCall} {typeErrors : Bool} {reply : StorageAnswer → Response}
    {permission : Permission} (h : authorized p permission c.keys = .ok ())
    (hneeds : c.needs = [permission]) : Guarded p Routed.step (Http.one typeErrors c reply) := by
  refine http_one fun needed hneeded => ?_
  rw [hneeds, List.mem_singleton] at hneeded
  rw [hneeded]
  exact allows_of_authorized h

theorem routed_both {c : StorageCall} {typeErrors : Bool} {reply : StorageAnswer → Response}
    (hread : authorized p .read c.keys = .ok ()) (hwrite : authorized p .write c.keys = .ok ())
    (hneeds : c.needs = [.read, .write]) : Guarded p Routed.step (Http.one typeErrors c reply) := by
  refine http_one fun needed hneeded => ?_
  rw [hneeds] at hneeded
  rcases List.mem_pair.mp hneeded with rfl | rfl
  · exact allows_of_authorized hread
  · exact allows_of_authorized hwrite

variable (site : Http.Site) (r : Request)

theorem routed_extended {permission : Permission} {method : Method} {absent : Response}
    {arguments : Except Response (List Json)} (h : method.needs = [permission]) :
    Guarded p Routed.step (Http.extended site p permission method absent arguments) :=
  .bind fun _ hallowed => .bind fun _ _ => .bind fun _ _ => routed_one hallowed h

theorem guarded_doGet : Guarded p Routed.step (doGet site p r) := by
  refine .ite (fun _ => .error _) fun _ => ?_
  refine .ite (fun _ => .bind fun _ h => routed_one h rfl) fun _ => ?_
  refine .ite (fun _ => .bind fun _ h => .ite (fun _ => routed_one h rfl) fun _ => .error _) fun _ => ?_
  refine .ite (fun _ => routed_extended site rfl) fun _ => ?_
  refine .ite (fun _ => routed_extended site rfl) fun _ => ?_
  refine .ite (fun _ => routed_extended site rfl) fun _ => ?_
  split
  · exact .bind fun _ h => .bind fun _ _ => routed_one h rfl
  · split
    · exact .bind fun _ h => routed_one h rfl
    · exact .error _

theorem guarded_doPut : Guarded p Routed.step (doPut site p r) := by
  unfold doPut
  split
  · exact .error _
  · refine .bind fun _ h => .bind fun fields _ => ?_
    split
    · exact .error _
    · exact routed_one h rfl

theorem guarded_doPost : Guarded p Routed.step (doPost site p r) := by
  refine .ite (fun _ => routed_extended site rfl) fun _ => ?_
  refine .ite (fun _ => routed_extended site rfl) fun _ => ?_
  refine .ite (fun _ => routed_extended site rfl) fun _ => ?_
  split
  · exact .bind fun _ hread => .bind fun _ hwrite => .bind fun _ _ => .bind fun _ _ =>
      routed_both hread hwrite rfl
  · split
    · exact .bind fun _ hread => .bind fun _ hwrite => routed_both hread hwrite rfl
    · refine .ite (fun _ => .bind fun _ h => .bind fun fields _ => ?_) fun _ => .error _
      split
      · exact .error _
      · exact routed_one h rfl

theorem guarded_doDelete : Guarded p Routed.step (doDelete site p r) := by
  unfold doDelete
  split
  · exact .error _
  · exact .bind fun _ h => routed_one h rfl

/-- Every request of a principal asks before it calls. -/
theorem guarded_route : Guarded p Routed.step (route site p r) := by
  unfold route
  split
  · exact guarded_doGet site r
  · exact guarded_doPut site r
  · exact guarded_doPost site r
  · exact guarded_doDelete site r

end Http

/-! ## Two runs -/

section TwoRuns

open Prog

variable {c : EngineConfig SnapshotValue} {I : Key → Prop}

/-- What two runs may ask of the storage: the same, except for values that take the same bytes. -/
inductive SameCall (c : EngineConfig SnapshotValue) (I : Key → Prop) : StorageCall → StorageCall → Prop
  | same (call : StorageCall) : SameCall c I call call
  | put {key : Key} {v w : SnapshotValue} (options : PutOptions) (h : Paired c (I key) v w) :
      SameCall c I (.put key v options) (.put key w options)
  | mset {xs ys : List (Key × SnapshotValue)} (h : List.Forall₂ (PairedItem c I) xs ys) :
      SameCall c I (.mset xs) (.mset ys)

/-- What the two runs get for a call; with `same` they get the same. -/
def SameAnswer (same : Prop) (a b : StorageAnswer) : Prop := same → a = b

theorem alike_durationOf (value : Json) (default : ℕ) (name : String) (allowZero : Bool) :
    Alike I Eq (durationOf value default name allowZero) (durationOf value default name allowZero) := by
  unfold durationOf
  cases seconds? value with
  | none => exact Agree.throw _
  | some seconds => exact alike_duration _ _ _ _

theorem alike_refuse {Q : StorageAnswer → StorageAnswer → Prop} (key : Key) (options : PutOptions)
    (tags : Except PyError (List Tag)) : Alike I Q (refuse c key options tags) (refuse c key options tags) := by
  refine (alike_validateKey key).bind_eq fun _ => ?_
  refine (alike_durationOf _ _ _ _).bind_eq fun _ => (alike_durationOf _ _ _ _).bind_eq fun _ => ?_
  exact (Agree.fromExcept (.refl (fun _ => rfl) tags)).bind_eq fun _ => Agree.throw _

theorem alike_putDocument (hlru : c.evictionPolicy = .lru) {key : Key} {v w : SnapshotValue}
    (h : Paired c (I key) v w) (options : PutOptions) :
    Alike I (SameAnswer (I key)) (putDocument c key v options) (putDocument c key w options) := by
  unfold putDocument
  split
  · exact (alike_put hlru h _ _ _ _ _).bind fun r r' hr => Agree.pure fun hi => by rw [hr.eq hi]
  · exact alike_refuse key options _

/-- A call takes the same course on twins, and gives the same for keys in `I`. -/
theorem alike_run (hlru : c.evictionPolicy = .lru) {x y : StorageCall} (h : SameCall c I x y) :
    Alike I (SameAnswer (∀ key ∈ x.keys, I key)) (x.run c) (y.run c) := by
  have hone : ∀ {key : Key}, (∀ k ∈ [key], I k) → I key := fun h => h _ List.mem_cons_self
  cases h with
  | put options h =>
    exact (alike_putDocument hlru h options).mono fun _ _ ha hall => ha (hone hall)
  | mset h => exact (alike_mset hlru h).bind_eq fun _ => Agree.pure fun _ => rfl
  | same =>
    cases x with
    | get key =>
      exact (alike_getEntry key).bind fun r r' hr => Agree.pure fun hall => by rw [hr.eq (hone hall)]
    | mget keys =>
      exact (alike_mget keys).bind fun rs rs' hrs =>
        Agree.pure fun hall => by rw [forall₂_resembles_eq hrs hall]
    | put key value options =>
      exact (alike_putDocument hlru (Paired.refl c _ value) options).mono fun _ _ ha hall => ha (hone hall)
    | mset values =>
      have hsame : List.Forall₂ (PairedItem c I) values values :=
        List.forall₂_same.mpr fun item _ => ⟨rfl, .refl c _ item.2⟩
      exact (alike_mset hlru hsame).bind_eq fun _ => Agree.pure fun _ => rfl
    | delete key => exact (alike_delete key).bind_eq fun _ => Agree.pure fun _ => rfl
    | deleteMany keys => exact (alike_deleteMany keys).bind_eq fun _ => Agree.pure fun _ => rfl
    | existsCount keys => exact (alike_existsCount keys).bind_eq fun _ => Agree.pure fun _ => rfl
    | expire key ttlSeconds =>
      exact (alike_expire key ttlSeconds).bind_eq fun _ => Agree.pure fun _ => rfl
    | ttl key => exact (alike_ttl key).bind_eq fun _ => Agree.pure fun _ => rfl
    | acquireLease key =>
      exact (alike_acquireLease key false).bind fun r r' hr =>
        Agree.pure fun hall => by rw [hr.eq (hone hall)]
    | invalidateTags tags =>
      refine (Agree.fromExcept (.refl (fun _ => rfl) (tagList tags))).bind_eq fun tags => ?_
      exact (alike_invalidateTags tags).bind_eq fun _ => Agree.pure fun _ => rfl
    | flush => exact alike_flush.bind_eq fun _ => Agree.pure fun _ => rfl
    | size => exact alike_size.bind_eq fun _ => Agree.pure fun _ => rfl
    | stats => exact alike_stats.bind_eq fun _ => Agree.pure fun _ => rfl
    | extension method keys arguments => exact Agree.throw _

/-- A handler whose calls only take keys in `I`. -/
theorem alike_step (hlru : c.evictionPolicy = .lru) {step : Step ρ}
    (h : ∀ call, step.Calls call → ∀ key ∈ call.keys, I key) :
    Alike I Eq (step.run c) (step.run c) := by
  induction step with
  | reply r => exact Agree.pure rfl
  | call request next ih =>
    refine (alike_run hlru (.same request)).bind fun a b hab => ?_
    obtain rfl : a = b := hab (h request .here)
    exact ih a fun call hcall => h call (.later hcall)

/-- A request that reaches the server: by the principal, or a call on behalf of someone else. -/
inductive Event
  | command (args : List Resp.Bytes)
  | request (r : Http.Request)
  | other (call : StorageCall)

/-- What the principal gets for its own requests. -/
inductive Reply
  | command (outcome : Resp.Outcome)
  | request (response : Option Http.Response)

def Server.step (server : Server) (p : Principal) (s : Engine SnapshotValue) :
    Event → Option Reply × Engine SnapshotValue
  | .command args =>
    let r := Resp.respond server.resp server.engine p args s
    (some (.command r.1), r.2)
  | .request request =>
    let r := Http.respond server.http server.engine p request s
    (some (.request r.1), r.2)
  | .other call => (none, (call.run server.engine s).2)

/-- The replies that the principal gets in a run. -/
def Server.replies (server : Server) (p : Principal) : List Event → Engine SnapshotValue → List Reply
  | [], _ => []
  | e :: es, s =>
    (server.step p s e).1.toList ++ server.replies p es (server.step p s e).2

/-- The same request by the principal, or calls on behalf of someone else that differ at most in
values outside `I`, of the same bytes. -/
inductive SameEvent (c : EngineConfig SnapshotValue) (I : Key → Prop) : Event → Event → Prop
  | command (args : List Resp.Bytes) : SameEvent c I (.command args) (.command args)
  | request (r : Http.Request) : SameEvent c I (.request r) (.request r)
  | other {x y : StorageCall} (h : SameCall c I x y) : SameEvent c I (.other x) (.other y)

variable {server : Server} {s t : Engine SnapshotValue}

theorem respond_command (hp : Confined p) (hlru : server.engine.evictionPolicy = .lru)
    (h : Twin (Inside p) s t) (args : List Resp.Bytes) :
    (Resp.respond server.resp server.engine p args s).1 = (Resp.respond server.resp server.engine p args t).1 ∧
      Twin (Inside p) (Resp.respond server.resp server.engine p args s).2
        (Resp.respond server.resp server.engine p args t).2 := by
  unfold Resp.respond
  cases hexec : Resp.execute server.resp p args with
  | error message => exact ⟨rfl, h⟩
  | ok step =>
    have hinside : ∀ call, step.Calls call → ∀ key ∈ call.keys, Inside p key :=
      fun call hcall => hp.inside (guarded_execute hp server.resp step hexec call hcall)
    obtain ⟨hout, hstate⟩ := alike_step hlru hinside s t h
    have heq := hout.eq
    dsimp only
    rcases hs : step.run server.engine s with ⟨x, s'⟩
    rcases ht : step.run server.engine t with ⟨y, t'⟩
    rw [hs, ht] at heq hstate
    obtain rfl : x = y := heq
    cases x with
    | ok r => exact ⟨rfl, hstate⟩
    | error e => exact ⟨rfl, hstate⟩

theorem respond_request (hp : Confined p) (hlru : server.engine.evictionPolicy = .lru)
    (h : Twin (Inside p) s t) (r : Http.Request) :
    (Http.respond server.http server.engine p r s).1 = (Http.respond server.http server.engine p r t).1 ∧
      Twin (Inside p) (Http.respond server.http server.engine p r s).2
        (Http.respond server.http server.engine p r t).2 := by
  unfold Http.respond
  cases hroute : Http.route server.http p r with
  | error response => exact ⟨rfl, h⟩
  | ok routed =>
    have hinside : ∀ call, routed.step.Calls call → ∀ key ∈ call.keys, Inside p key :=
      fun call hcall => hp.inside (guarded_route server.http r routed hroute call hcall)
    obtain ⟨hout, hstate⟩ := alike_step hlru hinside s t h
    have heq := hout.eq
    dsimp only
    rcases hs : routed.step.run server.engine s with ⟨x, s'⟩
    rcases ht : routed.step.run server.engine t with ⟨y, t'⟩
    rw [hs, ht] at heq hstate
    obtain rfl : x = y := heq
    cases x with
    | ok r => exact ⟨rfl, hstate⟩
    | error e => exact ⟨rfl, hstate⟩

/-- One event gives the same reply and keeps the engines twins. -/
theorem step_same (hp : Confined p) (hlru : server.engine.evictionPolicy = .lru)
    (h : Twin (Inside p) s t) {e e' : Event} (he : SameEvent server.engine (Inside p) e e') :
    (server.step p s e).1 = (server.step p t e').1 ∧
      Twin (Inside p) (server.step p s e).2 (server.step p t e').2 := by
  cases he with
  | command args =>
    obtain ⟨hreply, hstate⟩ := respond_command hp hlru h args
    exact ⟨congrArg (fun r => some (Reply.command r)) hreply, hstate⟩
  | request r =>
    obtain ⟨hreply, hstate⟩ := respond_request hp hlru h r
    exact ⟨congrArg (fun r => some (Reply.request r)) hreply, hstate⟩
  | other hcall => exact ⟨rfl, (alike_run hlru hcall s t h).2⟩

/-- Two runs that differ in values outside the prefixes give the same replies. -/
theorem replies_same (hp : Confined p) (hlru : server.engine.evictionPolicy = .lru) {es es' : List Event}
    (hes : List.Forall₂ (SameEvent server.engine (Inside p)) es es') (h : Twin (Inside p) s t) :
    server.replies p es s = server.replies p es' t := by
  induction hes generalizing s t with
  | nil => rfl
  | cons he _ ih =>
    obtain ⟨hreply, hstate⟩ := step_same hp hlru h he
    simp only [Server.replies]
    rw [hreply, ih hstate]

end TwoRuns

/-- Calls that take keys only take keys inside the prefixes, each with the permissions that it
needs; and the replies do not depend on the values outside. -/
theorem key_prefix_confinement (p : Principal) (hp : Confined p) :
    (∀ site args step call, Resp.execute site p args = .ok step → step.Calls call → ∀ key ∈ call.keys,
      Inside p key ∧ ∀ permission ∈ call.needs, permission ∈ p.permissions ∧ p.allows permission [key]) ∧
    (∀ site r routed call, Http.route site p r = .ok routed → routed.step.Calls call → ∀ key ∈ call.keys,
      Inside p key ∧ ∀ permission ∈ call.needs, permission ∈ p.permissions ∧ p.allows permission [key]) ∧
    ∀ server : Server, server.engine.evictionPolicy = .lru → ∀ s t, Twin (Inside p) s t →
      ∀ es es', List.Forall₂ (SameEvent server.engine (Inside p)) es es' →
        server.replies p es s = server.replies p es' t := by
  have hcall : ∀ call, Permitted p call → ∀ key ∈ call.keys, Inside p key ∧
      ∀ permission ∈ call.needs, permission ∈ p.permissions ∧ p.allows permission [key] := by
    intro call hpermitted key hkey
    have hinside := hp.inside hpermitted key hkey
    refine ⟨hinside, fun permission hneeded => ?_⟩
    have hhas := (hp.allows_iff.mp (hpermitted permission hneeded)).1
    refine ⟨hhas, hp.allows_iff.mpr ⟨hhas, fun key' hkey' => ?_⟩⟩
    rw [List.mem_singleton] at hkey'
    rw [hkey']
    exact hinside
  refine ⟨?_, ?_, fun server hlru s t hst es es' hes => replies_same hp hlru hes hst⟩
  · intro site args step call hexec hcalls
    exact hcall call (guarded_execute hp site step hexec call hcalls)
  · intro site r routed call hroute hcalls
    exact hcall call (guarded_route site r routed hroute call hcalls)

/-! ## A reader of one prefix -/

def smallServer : Server where
  resp := ⟨Controlplane.plainFloats, fun _ => false, "", fun _ _ => [], fun _ _ => .error ""⟩
  http := ⟨Controlplane.plainFloats, fun _ => false, fun _ => false, fun _ => Http.notFound⟩
  engine := Controlplane.smallQuotas.engine Controlplane.smallSettings Controlplane.plainFloats
  codec_eq := rfl

def reader : Principal := ⟨"reader", {.read}, ["a:"], "default", ∅⟩

/-- Someone else writes one byte under `b`; the reader then asks for `a:b` and for `b`. -/
def readerRun (byte : UInt8) : List Event :=
  [.other (.put "b" (.bytes [byte]) ⟨.null, .null, .arr [], .null, false⟩),
    .command [Resp.utf8 "GET", Resp.utf8 "a:b"], .command [Resp.utf8 "GET", Resp.utf8 "b"]]

theorem reader_confined : Confined reader where
  prefixes := by simp [reader]
  permissions := by simp [reader]

theorem reader_not_inside : ¬Inside reader "b" := by
  simp [Inside, reader, Auth.startsWith]

theorem reader_same_replies :
    smallServer.replies reader (readerRun 1) init = smallServer.replies reader (readerRun 2) init := by
  have hput : SameEvent smallServer.engine (Inside reader)
      (.other (.put "b" (.bytes [1]) ⟨.null, .null, .arr [], .null, false⟩))
      (.other (.put "b" (.bytes [2]) ⟨.null, .null, .arr [], .null, false⟩)) :=
    .other (.put _ ⟨⟨rfl, .some rfl⟩, fun h => absurd h reader_not_inside⟩)
  exact (key_prefix_confinement reader reader_confined).2.2 smallServer rfl init init (Twin.refl rfl)
    (readerRun 1) (readerRun 2) (.cons hput (.cons (.command _) (.cons (.command _) .nil)))

end MegaCache.Protocols
