import MegaCache.Auth.Users
import MegaCache.Lib.TextFrames

/-!
# Authentication

`AuthManager.authenticate` as the threads of the servers run it: a call compares the
API key, looks the user up and the pair of name and password in the cache of
successes, takes one of the verification slots, verifies, gives the slot back and
stores the success.  Between these steps the steps of other calls may come.  The
digest of SHA-256 and `verify_password` are parameters.

`authenticate` raises where the comparison of the API key meets a character beyond
ASCII, and the digest of a cached success is that of two texts joined by a NUL, which
a name may contain; `authenticate_right` says when neither happens.
-/

namespace MegaCache.Auth

/-- A call of `authenticate`. -/
structure Call where
  username : Option String
  password : String
deriving DecidableEq, Repr

/-- A manager after its constructor, with the primitives it calls. -/
structure AuthManager (Digest : Type) where
  apiKey : Option String
  users : OrderedDict String User
  defaultTenant : String
  sha256 : List UInt8 → Digest
  verifyPassword : String → String → Bool
  keyed : Keyed users

/-- The constructor, given the document of the users file. -/
def AuthManager.init {Digest : Type} (apiKey : Option String) (usersFile : Option Json)
    (settings : TenantSettings) (sha256 : List UInt8 → Digest)
    (verifyPassword : String → String → Bool) : Except LoadError (AuthManager Digest) := do
  let defaultTenant ← validateTenantId (.str settings.defaultTenant)
  let _ ← (settings.allowedTenants.getD []).mapM fun tenant => validateTenantId (.str tenant)
  if settings.allowedTenants.any (defaultTenant ∉ ·) then
    .error (.valueError "default tenant is not configured")
  match h : loadUsers settings usersFile with
  | .ok users => .ok ⟨apiKey, users, defaultTenant, sha256, verifyPassword, loadUsers_keyed h⟩
  | .error e => .error e

/-- The `TypeError` of `hmac.compare_digest`. -/
inductive Raised
  | nonAscii
deriving DecidableEq, Repr

def isAscii (s : String) : Bool := s.toList.all fun ch => ch.toNat < 128

/-- `hmac.compare_digest` of two texts. -/
def compareDigest (a b : String) : Except Raised Bool :=
  if isAscii a && isAscii b then .ok (a = b) else .error .nonAscii

/-- The bytes whose digest is the key of a cached success. -/
def joined (username password : String) : List UInt8 :=
  Json.utf8 username.toList ++ 0 :: Json.utf8 password.toList

namespace AuthManager

variable {Digest : Type} (m : AuthManager Digest)

def apiKeyPrincipal : Principal :=
  ⟨"legacy-api-key", {.admin}, [], m.defaultTenant,
    {.tenantAdmin, .platformAdmin, .operator, .auditor, .billingAdmin}⟩

/-- Whether the password is the API key. -/
def checkApiKey (call : Call) : Except Raised Bool :=
  match m.apiKey with
  | none => .ok false
  | some key =>
    if call.username = none ∨ call.username = some "default" then compareDigest call.password key
    else .ok false

end AuthManager

/-- The local variables of a call from the lookup of the user on. -/
structure Pending (Digest : Type) where
  username : String
  password : String
  user : User
  cacheKey : Digest
  now : ℚ

/-- Where a call is: before the slot, while it holds a slot, or before it stores its success. -/
inductive Phase (Digest : Type)
  | admitting (p : Pending Digest)
  | verifying (p : Pending Digest)
  | storing (p : Pending Digest)

def Phase.pending {Digest : Type} : Phase Digest → Pending Digest
  | admitting p => p
  | verifying p => p
  | storing p => p

/-- A call that came to its end, and whether it found no free slot. -/
structure Answered where
  call : Call
  exhausted : Bool
  result : Except Raised (Option Principal)
deriving DecidableEq

/-- The state the threads share, and what they have answered. -/
structure AuthState (Digest : Type) where
  successCache : OrderedDict Digest (ℚ × Principal)
  slots : ℕ
  threads : ℕ → Option (Phase Digest)
  answers : List Answered

def AuthState.initial {Digest : Type} : AuthState Digest :=
  ⟨OrderedDict.empty, 4, fun _ => none, []⟩

namespace AuthState

variable {Digest : Type}

/-- The thread has answered. -/
def answer (s : AuthState Digest) (thread : ℕ) (call : Call) (exhausted : Bool)
    (result : Except Raised (Option Principal)) : AuthState Digest :=
  { s with
    threads := Function.update s.threads thread none
    answers := s.answers ++ [⟨call, exhausted, result⟩] }

def goto (s : AuthState Digest) (thread : ℕ) (phase : Phase Digest) : AuthState Digest :=
  { s with threads := Function.update s.threads thread (some phase) }

end AuthState

namespace AuthManager

variable {Digest : Type} [DecidableEq Digest] (m : AuthManager Digest)

/-- `while len(cache) > 1024: cache.popitem(last=False)`. -/
def trim (cache : OrderedDict Digest (ℚ × Principal)) : OrderedDict Digest (ℚ × Principal) :=
  ⟨cache.toList.drop (cache.size - 1024),
    ((List.drop_sublist _ _).map Prod.fst).nodup cache.nodup⟩

/-- The lookup in the cache of successes, under its lock. -/
def lookupSuccess (s : AuthState Digest) (thread : ℕ) (p : Pending Digest) : AuthState Digest :=
  let call : Call := ⟨some p.username, p.password⟩
  match s.successCache.get? p.cacheKey with
  | some (expires, principal) =>
    if p.now < expires then
      { s with successCache := s.successCache.moveToEnd p.cacheKey }.answer thread call false
        (.ok (some principal))
    else { s with successCache := s.successCache.erase p.cacheKey }.goto thread (.admitting p)
  | none => s.goto thread (.admitting p)

/-- A call up to the end of its lookup in the cache. -/
def enter (s : AuthState Digest) (thread : ℕ) (now : ℚ) (call : Call) : AuthState Digest :=
  match m.checkApiKey call with
  | .error e => s.answer thread call false (.error e)
  | .ok true => s.answer thread call false (.ok (some m.apiKeyPrincipal))
  | .ok false =>
    match call.username with
    | none => s.answer thread call false (.ok none)
    | some username =>
      match m.users.get? username with
      | none => s.answer thread call false (.ok none)
      | some user =>
        lookupSuccess s thread
          ⟨username, call.password, user, m.sha256 (joined username call.password), now⟩

/-- The next step of a call that is under way. -/
def advance (s : AuthState Digest) (thread : ℕ) : Phase Digest → AuthState Digest
  | .admitting p =>
    if s.slots = 0 then s.answer thread ⟨some p.username, p.password⟩ true (.ok none)
    else { s with slots := s.slots - 1 }.goto thread (.verifying p)
  | .verifying p =>
    if m.verifyPassword p.password p.user.passwordHash then
      { s with slots := s.slots + 1 }.goto thread (.storing p)
    else { s with slots := s.slots + 1 }.answer thread ⟨some p.username, p.password⟩ false (.ok none)
  | .storing p =>
    { s with
      successCache := trim ((s.successCache.set p.cacheKey (p.now + 60, p.user.principal)).moveToEnd
        p.cacheKey) }.answer thread ⟨some p.username, p.password⟩ false
      (.ok (some p.user.principal))

/-- What the scheduler does next. -/
inductive Event
  | enter (thread : ℕ) (now : ℚ) (call : Call)
  | advance (thread : ℕ)

/-- One step; a thread that is in a call makes no other call, and one that is in none
has no next step. -/
def step (s : AuthState Digest) : Event → AuthState Digest
  | .enter thread now call =>
    match s.threads thread with
    | none => m.enter s thread now call
    | some _ => s
  | .advance thread =>
    match s.threads thread with
    | none => s
    | some phase => m.advance s thread phase

def run (events : List Event) : AuthState Digest := events.foldl m.step AuthState.initial

end AuthManager

/-! ## What a call is to answer -/

def AuthManager.Event.call? : AuthManager.Event → Option Call
  | .enter _ _ call => some call
  | .advance _ => none

/-- The calls of a run. -/
def AuthManager.calls (events : List AuthManager.Event) : List Call :=
  events.filterMap AuthManager.Event.call?

namespace AuthManager

variable {Digest : Type} (m : AuthManager Digest)

/-- The call has the API key, without a name or under the name of the key. -/
def HasKey (call : Call) : Prop :=
  m.apiKey = some call.password ∧ (call.username = none ∨ call.username = some "default")

/-- The call names the user and has a password that verifies. -/
def Verifies (call : Call) (user : User) : Prop :=
  m.users.get? user.username = some user ∧ call.username = some user.username ∧
    m.verifyPassword call.password user.passwordHash = true

/-- The answer of the comparison with the API key and of the verification alone. -/
def answerWithoutCache (call : Call) : Except Raised (Option Principal) :=
  match m.checkApiKey call with
  | .error e => .error e
  | .ok true => .ok (some m.apiKeyPrincipal)
  | .ok false =>
    match call.username.bind m.users.get? with
    | none => .ok none
    | some user =>
      .ok (if m.verifyPassword call.password user.passwordHash then some user.principal else none)

/-- What is asked of an answer. -/
structure Right (a : Answered) (result : Option Principal) : Prop where
  returns : a.result = .ok result
  sound : ∀ p, result = some p →
    (p = m.apiKeyPrincipal ∧ m.HasKey a.call) ∨ ∃ user, p = user.principal ∧ m.Verifies a.call user
  complete : ∀ user, m.Verifies a.call user → result = none → a.exhausted = true
  uncached : m.answerWithoutCache a.call = .ok result ∨ (a.exhausted = true ∧ result = none)

/-- Where the call is compared with the API key, both texts are ASCII. -/
def Comparable (call : Call) : Prop :=
  ∀ key, m.apiKey = some key → call.username = none ∨ call.username = some "default" →
    isAscii call.password ∧ isAscii key

/-- No two of the calls name different users and have the same joined text. -/
def Separate (calls : List Call) : Prop :=
  ∀ c ∈ calls, ∀ d ∈ calls, ∀ u v, c.username = some u → d.username = some v →
    u ∈ m.users.keys → v ∈ m.users.keys → joined u c.password = joined v d.password → u = v

variable {m : AuthManager Digest} {call : Call} {b : Bool}

theorem joined_password {u p q : String} (h : joined u p = joined u q) : p = q := by
  have hbytes : Json.utf8 p.toList = Json.utf8 q.toList := by
    simpa [joined] using h
  exact String.ext (Json.utf8_injective hbytes)

/-- The bytes of a name without a NUL have no zero byte. -/
theorem zero_notMem_utf8 {name : String} (h : Char.ofNat 0 ∉ name.toList) :
    0 ∉ Json.utf8 name.toList := by
  intro hmem
  obtain ⟨ch, hch, hzero⟩ := List.mem_flatMap.mp hmem
  have hnat : ch.toNat = 0 := Json.utf8EncodeChar_small hzero (by decide)
  have hch0 : ch = Char.ofNat 0 := by
    rw [← hnat, Char.ofNat_toNat]
  exact h (hch0 ▸ hch)

/-- Names without a NUL are told apart by the joined texts. -/
theorem separate_of_names (h : ∀ name ∈ m.users.keys, Char.ofNat 0 ∉ name.toList)
    (calls : List Call) : m.Separate calls := by
  intro c _ d _ u v _ _ hu hv hjoined
  have hnames := append_separator_inj (zero_notMem_utf8 (h u hu)) (zero_notMem_utf8 (h v hv)) hjoined
  exact String.ext (Json.utf8_injective hnames.1)

theorem checkApiKey_error : (∃ e, m.checkApiKey call = .error e) ↔ ¬m.Comparable call := by
  unfold checkApiKey Comparable
  cases m.apiKey with
  | none => simp
  | some key =>
    by_cases hname : call.username = none ∨ call.username = some "default"
    · by_cases hascii : isAscii call.password = true ∧ isAscii key = true
      · simp [hname, compareDigest, hascii]
      · have hcompare : compareDigest call.password key = .error .nonAscii := by
          simp [compareDigest, hascii]
        refine iff_of_true ⟨.nonAscii, ?_⟩ fun h => hascii (h key rfl hname)
        exact (if_pos hname).trans hcompare
    · simp [hname]

theorem hasKey_of_checkApiKey (h : m.checkApiKey call = .ok true) : m.HasKey call := by
  unfold checkApiKey at h
  split at h
  · cases h
  next key hkey =>
    split_ifs at h with hname
    · unfold compareDigest at h
      split_ifs at h with hascii
      have heq : call.password = key := by simpa using Except.ok.inj h
      exact ⟨hkey.trans (congrArg some heq.symm), hname⟩
    · cases h

/-! ## The answers of a run -/

/-- An answer of the comparison and the verification alone is right. -/
theorem right_of_uncached {a : Answered} {result : Option Principal} (hresult : a.result = .ok result)
    (h : m.answerWithoutCache a.call = .ok result) : m.Right a result := by
  refine ⟨hresult, ?sound, ?complete, .inl h⟩
  case sound =>
    rintro p rfl
    unfold answerWithoutCache at h
    split at h
    · cases h
    next hkey =>
      have hp : m.apiKeyPrincipal = p := by simpa using h
      exact .inl ⟨hp.symm, hasKey_of_checkApiKey hkey⟩
    next hkey =>
      split at h
      · cases h
      next user huser =>
        obtain ⟨name, hname, hget⟩ := Option.bind_eq_some_iff.mp huser
        have hown := m.keyed name user hget
        split_ifs at h with hverify
        · have hp : user.principal = p := by simpa using h
          exact .inr ⟨user, hp.symm, by rw [hown]; exact hget, by rw [hown]; exact hname, hverify⟩
        · cases h
  case complete =>
    rintro user ⟨hget, hname, hverify⟩ rfl
    unfold answerWithoutCache at h
    split at h
    · cases h
    · cases h
    · simp [hname, hget, hverify] at h

/-- What a pending call got from the table, one of the calls of the run. -/
structure Genuine (m : AuthManager Digest) (calls : List Call) (p : Pending Digest) : Prop where
  mem : (⟨some p.username, p.password⟩ : Call) ∈ calls
  noKey : m.checkApiKey ⟨some p.username, p.password⟩ = .ok false
  known : m.users.get? p.username = some p.user
  cacheKey : p.cacheKey = m.sha256 (joined p.username p.password)

theorem Genuine.uncached {calls : List Call} {p : Pending Digest} (h : m.Genuine calls p) :
    m.answerWithoutCache ⟨some p.username, p.password⟩ =
      .ok (if m.verifyPassword p.password p.user.passwordHash then some p.user.principal
        else none) := by
  simp [answerWithoutCache, h.noKey, h.known]

/-- The answer raises exactly where the texts cannot be compared, and is right where the
joined texts of the run tell the users apart. -/
structure Settled (m : AuthManager Digest) (calls : List Call) (a : Answered) : Prop where
  raises : (∃ e, a.result = .error e) ↔ ¬m.Comparable a.call
  right : m.Separate calls → m.Comparable a.call → ∃ result, m.Right a result

theorem settled_of_right {calls : List Call} {a : Answered} {result : Option Principal}
    (hkey : m.checkApiKey a.call = .ok b) (hresult : a.result = .ok result)
    (h : m.Separate calls → m.Right a result) : m.Settled calls a := by
  refine ⟨?_, fun hsep _ => ⟨result, h hsep⟩⟩
  rw [← checkApiKey_error, hkey, hresult]
  simp

section

variable [DecidableEq Digest]

/-- What holds between two steps of a run that makes the given calls. -/
structure Inv (m : AuthManager Digest) (calls : List Call) (s : AuthState Digest) : Prop where
  cached : ∀ k expires principal, s.successCache.get? k = some (expires, principal) →
    ∃ p, m.Genuine calls p ∧ p.cacheKey = k ∧ principal = p.user.principal ∧
      m.verifyPassword p.password p.user.passwordHash = true
  pending : ∀ thread phase, s.threads thread = some phase → m.Genuine calls phase.pending
  verified : ∀ thread p, s.threads thread = some (.storing p) →
    m.verifyPassword p.password p.user.passwordHash = true
  answered : ∀ a ∈ s.answers, m.Settled calls a

variable {calls : List Call} {s : AuthState Digest} {thread : ℕ}

theorem inv_initial : m.Inv calls AuthState.initial where
  cached := by
    intro k expires principal h
    simp [AuthState.initial] at h
  pending := by
    intro thread phase h
    cases h
  verified := by
    intro thread p h
    cases h
  answered := by
    intro a h
    cases h

theorem Inv.answer (h : m.Inv calls s) {call : Call} {exhausted : Bool}
    {result : Except Raised (Option Principal)} (ha : m.Settled calls ⟨call, exhausted, result⟩) :
    m.Inv calls (s.answer thread call exhausted result) where
  cached := h.cached
  pending := by
    intro t phase ht
    simp only [AuthState.answer, Function.update_apply] at ht
    split_ifs at ht
    exact h.pending t phase ht
  verified := by
    intro t p ht
    simp only [AuthState.answer, Function.update_apply] at ht
    split_ifs at ht
    exact h.verified t p ht
  answered := by
    intro a hmem
    rcases List.mem_append.mp hmem with hold | hnew
    · exact h.answered a hold
    · rw [List.mem_singleton.mp hnew]
      exact ha

theorem Inv.goto (h : m.Inv calls s) {phase : Phase Digest} (hphase : m.Genuine calls phase.pending)
    (hstoring : ∀ p, phase = .storing p → m.verifyPassword p.password p.user.passwordHash = true) :
    m.Inv calls (s.goto thread phase) where
  cached := h.cached
  pending := by
    intro t other ht
    simp only [AuthState.goto, Function.update_apply] at ht
    split_ifs at ht
    · cases ht
      exact hphase
    · exact h.pending t other ht
  verified := by
    intro t p ht
    simp only [AuthState.goto, Function.update_apply] at ht
    split_ifs at ht
    · exact hstoring p (Option.some.inj ht)
    · exact h.verified t p ht
  answered := h.answered

/-- Only the cache changed, to one whose successes were there. -/
theorem Inv.recache (h : m.Inv calls s) {cache : OrderedDict Digest (ℚ × Principal)} {slots : ℕ}
    (hcache : ∀ k v, cache.get? k = some v → ∃ p, m.Genuine calls p ∧ p.cacheKey = k ∧
      v.2 = p.user.principal ∧ m.verifyPassword p.password p.user.passwordHash = true) :
    m.Inv calls { s with successCache := cache, slots := slots } where
  cached := by
    intro k expires principal hget
    exact hcache k _ hget
  pending := h.pending
  verified := h.verified
  answered := h.answered

theorem Inv.reslot (h : m.Inv calls s) (slots : ℕ) : m.Inv calls { s with slots := slots } :=
  h.recache fun k v hget => h.cached k v.1 v.2 hget

/-- A success found in the cache is that of the call itself. -/
theorem Inv.hit (hsha : Function.Injective m.sha256) (h : m.Inv calls s) {p : Pending Digest}
    (hp : m.Genuine calls p) {expires : ℚ} {principal : Principal}
    (hget : s.successCache.get? p.cacheKey = some (expires, principal)) (hsep : m.Separate calls) :
    m.answerWithoutCache ⟨some p.username, p.password⟩ = .ok (some principal) := by
  obtain ⟨q, hq, hkey, rfl, hverify⟩ := h.cached _ _ _ hget
  have hjoined : joined q.username q.password = joined p.username p.password := by
    apply hsha
    rw [← hq.cacheKey, ← hp.cacheKey, hkey]
  have hname : q.username = p.username :=
    hsep _ hq.mem _ hp.mem _ _ rfl rfl (OrderedDict.mem_keys.mpr ⟨_, hq.known⟩)
      (OrderedDict.mem_keys.mpr ⟨_, hp.known⟩) hjoined
  have hpassword : q.password = p.password := by
    rw [hname] at hjoined
    exact joined_password hjoined
  rw [← hname, ← hpassword, hq.uncached, if_pos hverify]

theorem Inv.lookupSuccess (hsha : Function.Injective m.sha256) (h : m.Inv calls s)
    {p : Pending Digest} (hp : m.Genuine calls p) : m.Inv calls (lookupSuccess s thread p) := by
  unfold AuthManager.lookupSuccess
  have hadm : ∀ q, Phase.admitting p = .storing q →
      m.verifyPassword q.password q.user.passwordHash = true := by
    intro q hq
    cases hq
  split
  next expires principal hget =>
    split_ifs with hfresh
    · refine (h.recache ?_).answer ?_
      · intro k v hmove
        rw [OrderedDict.get?_moveToEnd] at hmove
        exact h.cached k v.1 v.2 hmove
      · exact settled_of_right hp.noKey rfl fun hsep =>
          right_of_uncached rfl (h.hit hsha hp hget hsep)
    · refine (h.recache ?_).goto hp hadm
      intro k v herase
      rw [OrderedDict.get?_erase] at herase
      split_ifs at herase
      exact h.cached k v.1 v.2 herase
  · exact h.goto hp hadm

theorem Inv.enter (hsha : Function.Injective m.sha256) (h : m.Inv calls s) {now : ℚ}
    (hcall : call ∈ calls) : m.Inv calls (m.enter s thread now call) := by
  -- an answer before the lookup is that of the call without a cache
  have hearly : ∀ {b} result, m.checkApiKey call = .ok b → m.answerWithoutCache call = .ok result →
      m.Inv calls (s.answer thread call false (.ok result)) := by
    intro b result hkey hresult
    exact h.answer (settled_of_right hkey rfl fun _ => right_of_uncached rfl hresult)
  unfold AuthManager.enter
  split
  next e hkey =>
    have hraises := checkApiKey_error.mp ⟨e, hkey⟩
    exact h.answer ⟨iff_of_true ⟨e, rfl⟩ hraises, fun _ hcomparable => absurd hcomparable hraises⟩
  next hkey => exact hearly _ hkey (by simp [answerWithoutCache, hkey])
  next hkey =>
    obtain ⟨username, password⟩ := call
    split
    next hname =>
      cases hname
      exact hearly _ hkey (by simp [answerWithoutCache, hkey])
    next username hname =>
      cases hname
      split
      next hget => exact hearly _ hkey (by simp [answerWithoutCache, hkey, hget])
      next user hget => exact h.lookupSuccess hsha ⟨hcall, hkey, hget, rfl⟩

theorem get?_trim {cache : OrderedDict Digest (ℚ × Principal)} {k : Digest} {v : ℚ × Principal}
    (h : (trim cache).get? k = some v) : cache.get? k = some v := by
  rw [← OrderedDict.mem_toList] at h ⊢
  simp only [trim] at h
  exact List.mem_of_mem_drop h

theorem Inv.advance (h : m.Inv calls s) {phase : Phase Digest}
    (hthread : s.threads thread = some phase) : m.Inv calls (m.advance s thread phase) := by
  cases phase with
  | admitting p =>
    have hp : m.Genuine calls p := h.pending thread _ hthread
    simp only [AuthManager.advance]
    split_ifs with hslots
    · refine h.answer (settled_of_right hp.noKey rfl fun _ => ⟨rfl, ?_, fun _ _ _ => rfl, .inr ⟨rfl, rfl⟩⟩)
      intro p hnone
      cases hnone
    · exact (h.reslot _).goto hp (fun q hq => by cases hq)
  | verifying p =>
    have hp : m.Genuine calls p := h.pending thread _ hthread
    simp only [AuthManager.advance]
    split_ifs with hverify
    · refine (h.reslot _).goto hp ?_
      intro q hq
      cases hq
      exact hverify
    · refine (h.reslot _).answer (settled_of_right hp.noKey rfl fun _ => right_of_uncached rfl ?_)
      exact hp.uncached.trans (by rw [if_neg hverify])
  | storing p =>
    have hp : m.Genuine calls p := h.pending thread _ hthread
    have hverify := h.verified thread p hthread
    refine (h.recache ?_).answer (settled_of_right hp.noKey rfl fun _ => right_of_uncached rfl ?_)
    · intro k v htrim
      have hget := get?_trim htrim
      rw [OrderedDict.get?_moveToEnd, OrderedDict.get?_set] at hget
      split_ifs at hget with hk
      · cases hget
        exact ⟨p, hp, hk.symm, rfl, hverify⟩
      · exact h.cached k v.1 v.2 hget
    · exact hp.uncached.trans (by rw [if_pos hverify])

theorem Inv.step (hsha : Function.Injective m.sha256) (h : m.Inv calls s) {event : Event}
    (hevent : ∀ call, event.call? = some call → call ∈ calls) : m.Inv calls (m.step s event) := by
  cases event with
  | enter thread now call =>
    simp only [AuthManager.step]
    split
    · exact h.enter hsha (hevent call rfl)
    · exact h
  | advance thread =>
    simp only [AuthManager.step]
    split
    · exact h
    next phase hthread => exact h.advance hthread

theorem Inv.foldl (hsha : Function.Injective m.sha256) (events : List Event) :
    ∀ {s : AuthState Digest}, m.Inv calls s → (∀ call ∈ AuthManager.calls events, call ∈ calls) →
      m.Inv calls (events.foldl m.step s) := by
  induction events with
  | nil =>
    intro s h _
    exact h
  | cons event events ih =>
    intro s h hcalls
    rw [List.foldl_cons]
    refine ih (h.step hsha ?_) fun call hcall => hcalls call ?_
    · intro call hcall
      exact hcalls call (List.mem_filterMap.mpr ⟨event, List.mem_cons_self, hcall⟩)
    · obtain ⟨e, he, hcall⟩ := List.mem_filterMap.mp hcall
      exact List.mem_filterMap.mpr ⟨e, List.mem_cons_of_mem _ he, hcall⟩

/-- In every run a call raises exactly where its password is to be compared with the API
key and one of the two has a character beyond ASCII.  Where no two calls of the run name
different users and have the same joined text, every other answer is right: no principal
without the key or the password of its own user, `None` for a password that verifies only
without a free slot, and nothing that the cache has changed. -/
theorem authenticate_right (m : AuthManager Digest) (hsha : Function.Injective m.sha256)
    (events : List Event) :
    ∀ a ∈ (m.run events).answers,
      ((∃ e, a.result = .error e) ↔ ¬m.Comparable a.call) ∧
        (m.Separate (AuthManager.calls events) → m.Comparable a.call → ∃ result, m.Right a result) := by
  intro a ha
  have hinv : m.Inv (AuthManager.calls events) (m.run events) :=
    Inv.foldl hsha events inv_initial fun _ h => h
  exact ⟨(hinv.answered a ha).raises, (hinv.answered a ha).right⟩

end

/-! ## Calls that raise, and calls that are confused -/

/-- An object of the users file with a name and a password, where the hash of a password is
the password itself. -/
def userObject (name password : String) : Json :=
  .obj [("password_hash", .str password), ("permissions", .arr [.str "read"]),
    ("username", .str name)]

def openSettings : TenantSettings := ⟨"default", none, fun _ => .ok ()⟩

/-- Two users, the name of one is that of the other with a NUL and a letter behind it. -/
def twoUsersFile : Json :=
  .obj [("users", .arr [userObject "a" "b\x00c", userObject "a\x00b" "d"])]

def plainUser (name password : String) : User :=
  ⟨name, password, {.read}, [], "default", ∅⟩

def twoUsers : OrderedDict String User :=
  ⟨[("a", plainUser "a" "b\x00c"), ("a\x00b", plainUser "a\x00b" "d")], by decide⟩

theorem loadUsers_twoUsers : loadUsers openSettings (some twoUsersFile) = .ok twoUsers := by
  rfl

/-- A manager with an API key and two users. -/
def twoUsersManager : AuthManager (List UInt8) where
  apiKey := some "key"
  users := twoUsers
  defaultTenant := "default"
  sha256 := id
  verifyPassword := fun password encoded => password = encoded
  keyed := loadUsers_keyed loadUsers_twoUsers

/-- The constructor accepts this key and this file. -/
theorem init_twoUsers :
    AuthManager.init (some "key") (some twoUsersFile) openSettings id
      (fun password encoded => password = encoded) = .ok twoUsersManager := by
  rfl

/-- The first user signs in, and then a call with the second name and another password. -/
def confusedEvents : List Event :=
  [.enter 0 0 ⟨some "a", "b\x00c"⟩, .advance 0, .advance 0, .advance 0,
    .enter 0 1 ⟨some "a\x00b", "c"⟩]

/-- With an API key that is `key`, a password beyond ASCII raises.  After the first user has
signed in, the second name with a password that does not verify gets the first user's
principal. -/
theorem authenticate_fails :
    Function.Injective twoUsersManager.sha256 ∧
      (∃ a ∈ (twoUsersManager.run [.enter 0 0 ⟨none, "é"⟩]).answers,
        ∀ result, ¬twoUsersManager.Right a result) ∧
      ∃ a ∈ (twoUsersManager.run confusedEvents).answers,
        a.call = ⟨some "a\x00b", "c"⟩ ∧
          a.result = .ok (some (plainUser "a" "b\x00c").principal) ∧
          ∀ result, ¬twoUsersManager.Right a result := by
  refine ⟨Function.injective_id, ⟨⟨⟨none, "é"⟩, false, .error .nonAscii⟩, ?_, ?_⟩,
    ⟨⟨⟨some "a\x00b", "c"⟩, false, .ok (some (plainUser "a" "b\x00c").principal)⟩, ?_, rfl, rfl, ?_⟩⟩
  · decide
  · rintro result ⟨hreturns, -, -, -⟩
    cases hreturns
  · decide +kernel
  · rintro result ⟨hreturns, -, -, huncached | hnoSlot⟩
    · cases hreturns
      have hnone : twoUsersManager.answerWithoutCache ⟨some "a\x00b", "c"⟩ = .ok none := by
        decide
      rw [hnone] at huncached
      cases huncached
    · cases hnoSlot.1

/-- One user with a plain name, and the API key beside it. -/
def oneUserManager : AuthManager (List UInt8) where
  apiKey := some "key"
  users := OrderedDict.empty.set "a" (plainUser "a" "b")
  defaultTenant := "default"
  sha256 := id
  verifyPassword := fun password encoded => password = encoded
  keyed := keyed_empty.set (plainUser "a" "b")

def plainEvents : List Event :=
  [.enter 0 0 ⟨some "a", "b"⟩, .advance 0, .advance 0, .advance 0, .enter 1 1 ⟨some "a", "b"⟩,
    .enter 2 1 ⟨some "a", "é"⟩, .advance 2, .advance 2, .enter 2 2 ⟨none, "key"⟩]

theorem authenticate_right_plainEvents :
    (oneUserManager.run plainEvents).answers.length = 4 ∧
      ∀ a ∈ (oneUserManager.run plainEvents).answers, ∃ result, oneUserManager.Right a result := by
  refine ⟨by decide +kernel, fun a ha => ?_⟩
  have hanswers : ∀ a ∈ (oneUserManager.run plainEvents).answers,
      isAscii a.call.password = true ∨ a.call.username = some "a" := by
    decide +kernel
  have hcomparable : oneUserManager.Comparable a.call := by
    intro key hkey hname
    cases hkey
    rcases hanswers a ha with hascii | ha
    · exact ⟨hascii, by decide⟩
    · rw [ha] at hname
      simp at hname
  refine (authenticate_right oneUserManager Function.injective_id plainEvents a ha).2
    (separate_of_names ?_ _) hcomparable
  decide

end AuthManager

end MegaCache.Auth
