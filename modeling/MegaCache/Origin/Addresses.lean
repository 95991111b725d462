import Mathlib

/-!
# The address policy of the origin client

`_address_is_allowed` decides whether the client may connect to an address that the resolver
returned.  An address in none of the allowlisted networks must be public, or it is an IPv6 address
that carries IPv4 addresses of which one is allowlisted and the others are allowlisted or public.
The predicates of `ipaddress` that classify an address are taken as given.
-/

namespace MegaCache
namespace Origin

inductive Address
  | v4 (n : BitVec 32)
  | v6 (n : BitVec 128)
deriving DecidableEq, Repr

/-- The leading bits of an address. -/
structure Leading (w : ℕ) where
  address : BitVec w
  length : ℕ
deriving DecidableEq, Repr

/-- `address in network`, for two of the same version. -/
def Leading.contains {w : ℕ} (l : Leading w) (n : BitVec w) : Bool :=
  n >>> (w - l.length) = l.address >>> (w - l.length)

inductive Network
  | v4 (l : Leading 32)
  | v6 (l : Leading 128)
deriving DecidableEq, Repr

/-- The predicates of `ipaddress` on an address. -/
structure Classification where
  isGlobal : Address → Bool
  isPrivate : Address → Bool
  isLoopback : Address → Bool
  isLinkLocal : Address → Bool
  isMulticast : Address → Bool
  isReserved : Address → Bool
  isUnspecified : Address → Bool

/-- `_in_networks`. -/
def inNetworks (a : Address) (networks : List Network) : Bool :=
  networks.any fun network =>
    match a, network with
    | .v4 n, .v4 l => l.contains n
    | .v6 n, .v6 l => l.contains n
    | _, _ => false

/-! ## Embedded addresses -/

def low32 (n : BitVec 128) : BitVec 32 := n.extractLsb' 0 32

def compatibleNetwork : Leading 128 := ⟨0, 96⟩
def mappedNetwork : Leading 128 := ⟨0xffff00000000#128, 96⟩
def translatedNetwork : Leading 128 := ⟨0xffff000000000000#128, 96⟩
def nat64Network : Leading 128 := ⟨0x64ff9b#128 <<< 96, 96⟩
def localNat64Network : Leading 128 := ⟨0x64ff9b0001#128 <<< 80, 48⟩
def teredoNetwork : Leading 128 := ⟨0x20010000#128 <<< 96, 32⟩
def sixtofourNetwork : Leading 128 := ⟨0x2002#128 <<< 112, 16⟩

/-- `_LOW32_EMBEDDED_NETWORKS`. -/
def low32EmbeddedNetworks : List (Leading 128) :=
  [compatibleNetwork, mappedNetwork, translatedNetwork, nat64Network, localNat64Network]

/-- `_TRANSITION_NETWORKS`. -/
def transitionNetworks : List (Leading 128) :=
  low32EmbeddedNetworks ++ [teredoNetwork, sixtofourNetwork]

/-- `IPv6Address.ipv4_mapped`. -/
def ipv4Mapped (n : BitVec 128) : Option (BitVec 32) :=
  if n >>> 32 = 0xffff#128 then some (low32 n) else none

/-- `IPv6Address.sixtofour`. -/
def sixtofour (n : BitVec 128) : Option (BitVec 32) :=
  if n >>> 112 = 0x2002#128 then some (n.extractLsb' 80 32) else none

/-- `IPv6Address.teredo`: the server and the client, whose bits are inverted. -/
def teredo (n : BitVec 128) : Option (BitVec 32 × BitVec 32) :=
  if n >>> 96 = 0x20010000#128 then some (n.extractLsb' 64 32, ~~~low32 n) else none

def isIsatapAddress (n : BitVec 128) : Bool :=
  n.extractLsb' 32 32 = 0x00005efe#32 ∨ n.extractLsb' 32 32 = 0x02005efe#32

/-- `_embedded_ipv4_addresses`. -/
def embeddedIpv4Addresses : Address → List (BitVec 32)
  | .v4 _ => []
  | .v6 n =>
    ((ipv4Mapped n).toList ++ (sixtofour n).toList ++
      (teredo n).toList.flatMap (fun p => [p.1, p.2]) ++
      (if low32EmbeddedNetworks.any (·.contains n) then [low32 n] else []) ++
      if isIsatapAddress n then [low32 n] else []).eraseDups

def isTransitionAddress (n : BitVec 128) : Bool :=
  transitionNetworks.any (·.contains n) || isIsatapAddress n

variable (cls : Classification)

/-- `_is_public_address`. -/
def isPublicAddress (a : Address) : Bool :=
  (match a with
    | .v4 _ => true
    | .v6 n => !isTransitionAddress n) &&
  (cls.isGlobal a && !cls.isPrivate a && !cls.isLoopback a && !cls.isLinkLocal a &&
    !cls.isMulticast a && !cls.isReserved a && !cls.isUnspecified a)

/-- `_address_is_allowed`. -/
def addressIsAllowed (a : Address) (allowedNetworks : List Network) : Bool :=
  inNetworks a allowedNetworks ||
    ((embeddedIpv4Addresses a).any (fun e => inNetworks (.v4 e) allowedNetworks) &&
      (embeddedIpv4Addresses a).all fun e =>
        inNetworks (.v4 e) allowedNetworks || isPublicAddress cls (.v4 e)) ||
    isPublicAddress cls a

/-! ## What an address carries -/

/-- The IPv4 address behind a NAT64 prefix of the given length: the bits after the prefix, of
which the octet at bit 64 is left out, or the last 32 bits. -/
def behindNat64 (length : ℕ) (n : BitVec 128) : BitVec 32 :=
  if length = 96 then low32 n
  else (n.extractLsb' 64 64 ++ n.extractLsb' 0 56).extractLsb' (120 - length - 32) 32

/-- The IPv4 addresses in an IPv6 address, by the format that puts them there. -/
inductive Carries (n : BitVec 128) : BitVec 32 → Prop
  | compatible (h : compatibleNetwork.contains n) : Carries n (low32 n)
  | mapped (h : mappedNetwork.contains n) : Carries n (low32 n)
  | translated (h : translatedNetwork.contains n) : Carries n (low32 n)
  | nat64 (h : nat64Network.contains n) : Carries n (behindNat64 96 n)
  | localNat64 (h : localNat64Network.contains n) (length : ℕ) (hl : length ∈ [48, 56, 64, 96]) :
      Carries n (behindNat64 length n)
  | sixtofour (h : sixtofourNetwork.contains n) : Carries n (n.extractLsb' 80 32)
  | teredoServer (h : teredoNetwork.contains n) : Carries n (n.extractLsb' 64 32)
  | teredoClient (h : teredoNetwork.contains n) : Carries n (~~~low32 n)
  | isatap (h : isIsatapAddress n) : Carries n (low32 n)

/-- The IPv4 addresses of any address. -/
def Address.Carries : Address → BitVec 32 → Prop
  | .v4 _, _ => False
  | .v6 n, e => Origin.Carries n e

section Embedded

variable {n : BitVec 128} {e : BitVec 32}

theorem contains_iff {w : ℕ} (l : Leading w) (n : BitVec w) :
    l.contains n = true ↔
      n.toNat / 2 ^ (w - l.length) = l.address.toNat / 2 ^ (w - l.length) := by
  unfold Leading.contains
  rw [decide_eq_true_eq, ← BitVec.toNat_inj, BitVec.toNat_ushiftRight, BitVec.toNat_ushiftRight,
    Nat.shiftRight_eq_div_pow, Nat.shiftRight_eq_div_pow]

theorem mem_ipv4Mapped : e ∈ (ipv4Mapped n).toList ↔ mappedNetwork.contains n ∧ e = low32 n := by
  have hnet : mappedNetwork.contains n = decide (n >>> 32 = 0xffff#128) := rfl
  unfold ipv4Mapped
  rw [hnet, decide_eq_true_eq]
  split_ifs with h
  · simp [h]
  · simp [h]

theorem mem_sixtofour : e ∈ (sixtofour n).toList ↔
    sixtofourNetwork.contains n ∧ e = n.extractLsb' 80 32 := by
  have hnet : sixtofourNetwork.contains n = decide (n >>> 112 = 0x2002#128) := rfl
  unfold Origin.sixtofour
  rw [hnet, decide_eq_true_eq]
  split_ifs with h
  · simp [h]
  · simp [h]

theorem mem_teredo : e ∈ (teredo n).toList.flatMap (fun p => [p.1, p.2]) ↔
    teredoNetwork.contains n ∧ (e = n.extractLsb' 64 32 ∨ e = ~~~low32 n) := by
  have hnet : teredoNetwork.contains n = decide (n >>> 96 = 0x20010000#128) := rfl
  unfold teredo
  rw [hnet, decide_eq_true_eq]
  split_ifs with h
  · simp [h]
  · simp [h]

theorem mem_embedded : e ∈ embeddedIpv4Addresses (.v6 n) ↔
    (sixtofourNetwork.contains n ∧ e = n.extractLsb' 80 32) ∨
    (teredoNetwork.contains n ∧ (e = n.extractLsb' 64 32 ∨ e = ~~~low32 n)) ∨
    ((low32EmbeddedNetworks.any (·.contains n) ∨ isIsatapAddress n) ∧ e = low32 n) := by
  have hlow : ∀ b : Bool, e ∈ (if b then [low32 n] else []) ↔ b ∧ e = low32 n := by
    intro b
    cases b <;> simp
  have hmapped : mappedNetwork.contains n = true → low32EmbeddedNetworks.any (·.contains n) = true := by
    intro h
    exact List.any_eq_true.mpr ⟨mappedNetwork, by simp [low32EmbeddedNetworks], h⟩
  simp only [embeddedIpv4Addresses, List.mem_eraseDups, List.mem_append, mem_ipv4Mapped,
    mem_sixtofour, mem_teredo, hlow]
  constructor
  · rintro ((((⟨h, rfl⟩ | h) | h) | ⟨h, rfl⟩) | ⟨h, rfl⟩)
    · exact .inr (.inr ⟨.inl (hmapped h), rfl⟩)
    · exact .inl h
    · exact .inr (.inl h)
    · exact .inr (.inr ⟨.inl h, rfl⟩)
    · exact .inr (.inr ⟨.inr h, rfl⟩)
  · rintro (h | h | ⟨h | h, rfl⟩)
    · exact .inl (.inl (.inl (.inr h)))
    · exact .inl (.inl (.inr h))
    · exact .inl (.inr ⟨h, rfl⟩)
    · exact .inr ⟨h, rfl⟩

/-- The networks of different formats do not meet. -/
theorem localNat64_apart (h : localNat64Network.contains n) :
    ¬sixtofourNetwork.contains n ∧ ¬teredoNetwork.contains n := by
  rw [contains_iff] at h ⊢
  rw [contains_iff]
  simp only [localNat64Network, sixtofourNetwork, teredoNetwork] at h ⊢
  norm_num at h ⊢
  omega

/-- Behind a local NAT64 prefix only the last 32 bits are looked at. -/
theorem embedded_localNat64 (h : localNat64Network.contains n) :
    e ∈ embeddedIpv4Addresses (.v6 n) ↔ e = low32 n := by
  obtain ⟨hsix, hteredo⟩ := localNat64_apart h
  have hany : low32EmbeddedNetworks.any (·.contains n) = true :=
    List.any_eq_true.mpr ⟨localNat64Network, by simp [low32EmbeddedNetworks], h⟩
  rw [mem_embedded]
  constructor
  · rintro (⟨hs, -⟩ | ⟨ht, -⟩ | ⟨-, he⟩)
    · exact absurd hs hsix
    · exact absurd ht hteredo
    · exact he
  · exact fun he => .inr (.inr ⟨.inl hany, he⟩)

theorem Carries.mem_embedded (h : Carries n e) : e ∈ embeddedIpv4Addresses (.v6 n) ∨
    localNat64Network.contains n ∧ ∃ length ∈ [48, 56, 64], e = behindNat64 length n := by
  have hlow : ∀ l ∈ low32EmbeddedNetworks, l.contains n →
      low32 n ∈ embeddedIpv4Addresses (.v6 n) := by
    intro l hl hc
    exact Origin.mem_embedded.mpr (.inr (.inr ⟨.inl (List.any_eq_true.mpr ⟨l, hl, hc⟩), rfl⟩))
  cases h with
  | compatible h => exact .inl (hlow _ (by simp [low32EmbeddedNetworks]) h)
  | mapped h => exact .inl (hlow _ (by simp [low32EmbeddedNetworks]) h)
  | translated h => exact .inl (hlow _ (by simp [low32EmbeddedNetworks]) h)
  | nat64 h => exact .inl (hlow _ (by simp [low32EmbeddedNetworks]) h)
  | localNat64 h length hl =>
    by_cases h96 : length = 96
    · subst h96
      exact .inl (hlow _ (by simp [low32EmbeddedNetworks]) h)
    · refine .inr ⟨h, length, ?_, rfl⟩
      simpa [h96] using hl
  | sixtofour h => exact .inl (Origin.mem_embedded.mpr (.inl ⟨h, rfl⟩))
  | teredoServer h => exact .inl (Origin.mem_embedded.mpr (.inr (.inl ⟨h, .inl rfl⟩)))
  | teredoClient h => exact .inl (Origin.mem_embedded.mpr (.inr (.inl ⟨h, .inr rfl⟩)))
  | isatap h => exact .inl (Origin.mem_embedded.mpr (.inr (.inr ⟨.inr h, rfl⟩)))

/-- An address that carries another one is a transition address. -/
theorem Carries.isTransition (h : Carries n e) : isTransitionAddress n = true := by
  have hnet : ∀ l ∈ transitionNetworks, l.contains n → isTransitionAddress n = true := by
    intro l hl hc
    rw [isTransitionAddress, List.any_eq_true.mpr ⟨l, hl, hc⟩, Bool.true_or]
  cases h with
  | compatible h => exact hnet _ (by simp [transitionNetworks, low32EmbeddedNetworks]) h
  | mapped h => exact hnet _ (by simp [transitionNetworks, low32EmbeddedNetworks]) h
  | translated h => exact hnet _ (by simp [transitionNetworks, low32EmbeddedNetworks]) h
  | nat64 h => exact hnet _ (by simp [transitionNetworks, low32EmbeddedNetworks]) h
  | localNat64 h => exact hnet _ (by simp [transitionNetworks, low32EmbeddedNetworks]) h
  | sixtofour h => exact hnet _ (by simp [transitionNetworks]) h
  | teredoServer h => exact hnet _ (by simp [transitionNetworks]) h
  | teredoClient h => exact hnet _ (by simp [transitionNetworks]) h
  | isatap h => rw [isTransitionAddress, h, Bool.or_true]

end Embedded

/-! ## The policy -/

section Policy

variable {cls : Classification} {nets nets' : List Network} {a : Address} {n : BitVec 128}
  {e : BitVec 32}

/-- An IPv4 address that is allowlisted or public. -/
def Permitted (cls : Classification) (nets : List Network) (e : BitVec 32) : Prop :=
  inNetworks (.v4 e) nets = true ∨ isPublicAddress cls (.v4 e) = true

/-- An address is allowlisted itself, permitted for what it carries, or public. -/
theorem addressIsAllowed_iff : addressIsAllowed cls a nets = true ↔
    inNetworks a nets = true ∨
    ((∃ e ∈ embeddedIpv4Addresses a, inNetworks (.v4 e) nets = true) ∧
      ∀ e ∈ embeddedIpv4Addresses a, Permitted cls nets e) ∨
    isPublicAddress cls a = true := by
  simp only [addressIsAllowed, Bool.or_eq_true, Bool.and_eq_true, List.any_eq_true,
    List.all_eq_true, Permitted, or_assoc]

theorem not_public_of_transition (h : isTransitionAddress n = true) :
    isPublicAddress cls (.v6 n) = false := by
  simp [isPublicAddress, h]

theorem inNetworks_mono (h : nets ⊆ nets') (ha : inNetworks a nets = true) :
    inNetworks a nets' = true := by
  obtain ⟨network, hn, hc⟩ := List.any_eq_true.mp ha
  exact List.any_eq_true.mpr ⟨network, h hn, hc⟩

/-- A larger allowlist rejects nothing more. -/
theorem addressIsAllowed_mono (h : nets ⊆ nets') (ha : addressIsAllowed cls a nets = true) :
    addressIsAllowed cls a nets' = true := by
  rw [addressIsAllowed_iff] at ha ⊢
  rcases ha with ha | ⟨⟨e, he, hin⟩, hall⟩ | ha
  · exact .inl (inNetworks_mono h ha)
  · exact .inr (.inl ⟨⟨e, he, inNetworks_mono h hin⟩, fun e' he' => (hall e' he').imp_left (inNetworks_mono h)⟩)
  · exact .inr (.inr ha)

/-- What a transition address carries that is allowed without being allowlisted itself. -/
theorem permitted_of_embedded (ht : isTransitionAddress n = true)
    (ha : addressIsAllowed cls (.v6 n) nets = true) (hn : ¬inNetworks (.v6 n) nets = true) :
    (∃ e ∈ embeddedIpv4Addresses (.v6 n), inNetworks (.v4 e) nets = true) ∧
      ∀ e ∈ embeddedIpv4Addresses (.v6 n), Permitted cls nets e := by
  rcases addressIsAllowed_iff.mp ha with h | h | h
  · exact absurd h hn
  · exact h
  · rw [not_public_of_transition ht] at h
    cases h

/-- Where the policy looks at everything an address carries: it does not carry addresses at the
places of the shorter local NAT64 prefixes, or it is rejected, or these are permitted too. -/
def SeenThrough (cls : Classification) (nets : List Network) : Address → Prop
  | .v4 _ => True
  | .v6 n => localNat64Network.contains n = true → inNetworks (.v6 n) nets = false →
      inNetworks (.v4 (low32 n)) nets = true →
        ∀ length ∈ [48, 56, 64], Permitted cls nets (behindNat64 length n)

/-- An allowed address that is not allowlisted carries permitted addresses only, no transition
address is allowed without an allowlist, and a larger allowlist rejects nothing more, exactly
where the policy sees through the address. -/
theorem allowed_address_carries_permitted (cls : Classification) (nets : List Network)
    (a : Address) :
    ((addressIsAllowed cls a nets = true → inNetworks a nets = false →
        ∀ e, a.Carries e → Permitted cls nets e) ∧
      (nets = [] → (∃ e, a.Carries e) → addressIsAllowed cls a nets = false) ∧
      ∀ nets', nets ⊆ nets' → addressIsAllowed cls a nets = true →
        addressIsAllowed cls a nets' = true) ↔
    SeenThrough cls nets a := by
  cases a with
  | v4 n =>
    refine ⟨fun _ => trivial, fun _ => ⟨fun _ _ e he => he.elim, ?_, fun _ => addressIsAllowed_mono⟩⟩
    rintro - ⟨e, he⟩
    exact he.elim
  | v6 n =>
    constructor
    · rintro ⟨hcarried, -, -⟩ hlocal hnot hlow length hl
      have hallowed : addressIsAllowed cls (.v6 n) nets = true := by
        refine addressIsAllowed_iff.mpr (.inr (.inl ⟨⟨low32 n, ?_, hlow⟩, fun e he => ?_⟩))
        · exact (embedded_localNat64 hlocal).mpr rfl
        · rw [(embedded_localNat64 hlocal).mp he]
          exact .inl hlow
      refine hcarried hallowed hnot _ (Carries.localNat64 hlocal length ?_)
      exact List.mem_append_left [96] hl
    · intro hseen
      refine ⟨?_, ?_, fun _ => addressIsAllowed_mono⟩
      · intro hallowed hnot e he
        obtain ⟨⟨e', he', hin⟩, hall⟩ :=
          permitted_of_embedded he.isTransition hallowed (by rw [hnot]; exact Bool.false_ne_true)
        rcases he.mem_embedded with hmem | ⟨hlocal, length, hl, rfl⟩
        · exact hall e hmem
        · rw [(embedded_localNat64 hlocal).mp he'] at hin
          exact hseen hlocal hnot hin length hl
      · rintro rfl ⟨e, he⟩
        by_contra hallowed
        rw [Bool.not_eq_false] at hallowed
        obtain ⟨⟨e', -, hin⟩, -⟩ := permitted_of_embedded he.isTransition hallowed (by simp [inNetworks])
        simp [inNetworks] at hin

/-- The classification of `10.0.0.0/8`, and of IPv6 addresses as private ones. -/
def privateTens : Classification where
  isGlobal a := match a with
    | .v4 n => n >>> 24 ≠ 10#32
    | .v6 _ => false
  isPrivate a := match a with
    | .v4 n => n >>> 24 = 10#32
    | .v6 _ => true
  isLoopback _ := false
  isLinkLocal _ := false
  isMulticast _ := false
  isReserved _ := false
  isUnspecified _ := false

/-- `64:ff9b:1:a00:0:100:a02:304`: `10.0.0.1` behind a prefix of 48 bits and `10.2.3.4` at the end
are allowed where only `10.2.0.0/16` is. -/
theorem hidden_address_allowed :
    let a : Address := .v6 0x0064ff9b00010a00000001000a020304#128
    let nets : List Network := [.v4 ⟨0x0a020000#32, 16⟩]
    addressIsAllowed privateTens a nets = true ∧ inNetworks a nets = false ∧
      a.Carries 0x0a000001#32 ∧ ¬Permitted privateTens nets 0x0a000001#32 := by
  refine ⟨by decide, by decide, ?_, ?_⟩
  · exact Carries.localNat64 (by decide) 48 (by decide)
  · rintro (h | h)
    · revert h
      decide
    · revert h
      decide

end Policy
end Origin
end MegaCache
