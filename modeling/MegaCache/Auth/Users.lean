import MegaCache.Lib.Json
import MegaCache.Lib.OrderedDict
import Mathlib

/-!
# Principals and the users file

Who a caller is after authentication and what the caller may do, and the users file
as `_load_users` checks it.  The document is what `json.load` returns; the check of a
password hash is a parameter.  Texts are sequences of Unicode characters: a lone
surrogate comes neither from a decoded request nor from a header.
-/

namespace MegaCache.Auth

inductive Permission
  | read
  | write
  | invalidate
  | admin
deriving DecidableEq, Repr

inductive Role
  | tenantAdmin
  | platformAdmin
  | operator
  | auditor
  | billingAdmin
deriving DecidableEq, Repr

structure Principal where
  username : String
  permissions : Finset Permission
  keyPrefixes : List String
  tenantId : String
  roles : Finset Role
deriving DecidableEq

/-- `key.startswith(prefix)`. -/
def startsWith (key start : String) : Bool := start.toList.isPrefixOf key.toList

def Principal.allows (p : Principal) (permission : Permission) (keys : List String) : Bool :=
  if Permission.admin ∉ p.permissions ∧ permission ∉ p.permissions then false
  else if p.keyPrefixes = [] then true
  else keys.all fun key => p.keyPrefixes.any fun start => startsWith key start

structure User where
  username : String
  passwordHash : String
  permissions : Finset Permission
  keyPrefixes : List String
  tenantId : String
  roles : Finset Role
deriving DecidableEq

/-- The principal that a verified user gets. -/
def User.principal (u : User) : Principal :=
  ⟨u.username, u.permissions, u.keyPrefixes, u.tenantId, u.roles⟩

/-- What the constructor raises: a `ValueError` with its text, or the `TypeError` of a
list or an object as a member of a set. -/
inductive LoadError
  | valueError (text : String)
  | unhashable
deriving DecidableEq, Repr

def Permission.ofText : String → Option Permission
  | "read" => some .read
  | "write" => some .write
  | "invalidate" => some .invalidate
  | "admin" => some .admin
  | _ => none

def Role.ofText : String → Option Role
  | "tenant_admin" => some .tenantAdmin
  | "platform_admin" => some .platformAdmin
  | "operator" => some .operator
  | "auditor" => some .auditor
  | "billing_admin" => some .billingAdmin
  | _ => none

/-- The elements of a JSON array of non-empty texts. -/
def texts : List Json → Option (List String)
  | [] => some []
  | .str s :: rest => if s = "" then none else (texts rest).map (s :: ·)
  | _ :: _ => none

def hashable : Json → Bool
  | .arr _ => false
  | .obj _ => false
  | _ => true

/-- The value of a number or a truth value, which Python compares as numbers. -/
def number? : Json → Option ℚ
  | .bool b => some (if b then 1 else 0)
  | .int n => some n
  | .float x => some x
  | _ => none

/-- `a == b` for hashable values. -/
def sameItem : Json → Json → Bool
  | .null, .null => true
  | .str s, .str t => s = t
  | .nonFinite x, .nonFinite y => x = y ∧ x ≠ .nan
  | a, b =>
    match number? a, number? b with
    | some x, some y => x = y
    | _, _ => false

/-- Whether `frozenset` makes the list shorter. -/
def repeats : List Json → Bool
  | [] => false
  | j :: rest => rest.any (sameItem j) || repeats rest

/-- `frozenset(items)`, as far as its members have one of the known names. -/
def members {α : Type} [DecidableEq α] (ofText : String → Option α) (text : String)
    (items : List Json) : Except LoadError (Finset α) :=
  let names := items.map fun item =>
    match item with
    | .str s => ofText s
    | _ => none
  if names.all Option.isSome then .ok (names.filterMap id).toFinset
  else .error (.valueError text)

def tenantFirst (ch : Char) : Bool := ch.isAlphanum

def tenantChar (ch : Char) : Bool := ch.isAlphanum || ch ∈ ['.', '_', '-']

def validateTenantId : Json → Except LoadError String
  | .str s =>
    if s ≠ "" ∧ s.utf8ByteSize ≤ 128 ∧ s.toList.head?.any tenantFirst ∧ s.toList.all tenantChar then
      .ok s
    else .error (.valueError "tenant_id must be a 1-128 character identifier")
  | _ => .error (.valueError "tenant_id must be a 1-128 character identifier")

/-- What the constructor of `AuthManager` knows when it loads the users. -/
structure TenantSettings where
  defaultTenant : String
  allowedTenants : Option (List String)
  validatePasswordHash : String → Except LoadError Unit

/-- `value.get(name, default)` where an absent item has a default. -/
def item (value : Json) (name : String) (default : Json) : Json := (value.get? name).getD default

/-- One user of the file, `known` the names before it. -/
def loadUser (settings : TenantSettings) (known : List String) (value : Json) :
    Except LoadError User := do
  let .obj _ := value | .error (.valueError "each user must be an object")
  let .str username := item value "username" .null |
    .error (.valueError "invalid user definition")
  let .str passwordHash := item value "password_hash" .null |
    .error (.valueError "invalid user definition")
  let .arr permissions := item value "permissions" (.arr []) |
    .error (.valueError "invalid user definition")
  let .arr prefixItems := item value "key_prefixes" (.arr []) |
    .error (.valueError "invalid user definition")
  let roleItems ← match item value "roles" .null with
    | .null => .ok none
    | .arr items => .ok (some items)
    | _ => .error (.valueError "invalid user definition")
  let some prefixes := texts prefixItems | .error (.valueError "invalid user definition")
  if username = "" then .error (.valueError "invalid user definition")
  if !permissions.all hashable then .error .unhashable
  let permissionSet ← members Permission.ofText "user has invalid permissions" permissions
  if !(roleItems.getD []).all hashable then .error .unhashable
  if repeats (roleItems.getD []) then
    .error (.valueError "user roles must not contain duplicates")
  let roleSet ← match roleItems with
    | none => .ok (if .admin ∈ permissionSet then {.tenantAdmin} else ∅)
    | some items => members Role.ofText "user has invalid roles" items
  if permissionSet = ∅ ∧ roleSet = ∅ then
    .error (.valueError "user has no permissions or roles")
  let tenant ← validateTenantId (item value "tenant_id" (.str settings.defaultTenant))
  if settings.allowedTenants.any (tenant ∉ ·) then
    .error (.valueError ("user '" ++ username ++ "' references an unknown tenant"))
  if username ∈ known then .error (.valueError ("duplicate user '" ++ username ++ "'"))
  settings.validatePasswordHash passwordHash
  .ok ⟨username, passwordHash, permissionSet, prefixes, tenant, roleSet⟩

/-- The loop over the users of the file. -/
def loadEach (settings : TenantSettings) :
    OrderedDict String User → List Json → Except LoadError (OrderedDict String User)
  | users, [] => .ok users
  | users, value :: rest => do
    let user ← loadUser settings users.keys value
    loadEach settings (users.set user.username user) rest

/-- `_load_users`, given the document of the file. -/
def loadUsers (settings : TenantSettings) : Option Json →
    Except LoadError (OrderedDict String User)
  | none => .ok OrderedDict.empty
  | some document =>
    match document.get? "users" with
    | some (.arr []) => .error (.valueError "users file must contain at least one user")
    | some (.arr values) => loadEach settings OrderedDict.empty values
    | _ => .error (.valueError "users file must contain a users array")

/-- Every user is stored under its own name. -/
def Keyed (users : OrderedDict String User) : Prop :=
  ∀ name user, users.get? name = some user → user.username = name

theorem keyed_empty : Keyed OrderedDict.empty := by
  intro name user h
  rw [OrderedDict.get?_empty] at h
  cases h

theorem Keyed.set {users : OrderedDict String User} (h : Keyed users) (user : User) :
    Keyed (users.set user.username user) := by
  intro name other hget
  rw [OrderedDict.get?_set] at hget
  split_ifs at hget with hname
  · cases hget
    exact hname.symm
  · exact h name other hget

theorem loadEach_keyed {settings : TenantSettings} {values : List Json} :
    ∀ {users loaded : OrderedDict String User}, Keyed users →
      loadEach settings users values = .ok loaded → Keyed loaded := by
  induction values with
  | nil =>
    intro users loaded hkeyed h
    cases h
    exact hkeyed
  | cons value rest ih =>
    intro users loaded hkeyed h
    unfold loadEach at h
    cases hu : loadUser settings users.keys value with
    | error e =>
      rw [hu] at h
      cases h
    | ok user =>
      rw [hu] at h
      exact ih (hkeyed.set user) h

theorem loadUsers_keyed {settings : TenantSettings} {file : Option Json}
    {users : OrderedDict String User} (h : loadUsers settings file = .ok users) : Keyed users := by
  unfold loadUsers at h
  split at h
  · cases h
    exact keyed_empty
  · split at h
    · cases h
    · exact loadEach_keyed keyed_empty h
    · cases h

end MegaCache.Auth
