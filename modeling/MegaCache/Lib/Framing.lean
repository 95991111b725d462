import Mathlib.Tactic

/-!
# Calls and replies on one connection

A connection on which every call sends something and then reads a reply.  The calls
are in sync with the replies as long as each of them answers for its own reply and
leaves the stream at the next one.  A caller that reads a reply only in part stays in
sync exactly while there is nothing left to read.
-/

namespace Framing

variable {B C R A : Type}

/-- What the other side will have sent, what was sent to it, and whether the
connection is still in use. -/
structure Connection (B : Type) where
  incoming : List B
  outgoing : List B
  isOpen : Bool

variable (encode : R → List B) (answer : R → A) (call : C → Connection B → A × Connection B)

/-- Every call on an open connection gives the answer of its own reply, and leaves the
connection closed or at the next reply. -/
def InSync : List (C × R) → Connection B → Prop
  | [], _ => True
  | (command, r) :: rest, conn =>
    conn.isOpen = false ∨
      (call command conn).1 = answer r ∧
      ((call command conn).2.isOpen = false ∨
        (call command conn).2.incoming = rest.flatMap fun exchange => encode exchange.2) ∧
      InSync rest (call command conn).2

variable {encode answer call}

/-- Calls that leave `left r` of a reply unread are in sync if and only if they leave
nothing unread. -/
theorem inSync_iff (left : R → List B) {exchanges : List (C × R)} {outgoing : List B}
    (h : ∀ exchange ∈ exchanges, ∀ rest outgoing, ∃ outgoing',
      call exchange.1 ⟨encode exchange.2 ++ rest, outgoing, true⟩ =
        (answer exchange.2, ⟨left exchange.2 ++ rest, outgoing', true⟩)) :
    InSync encode answer call exchanges
        ⟨exchanges.flatMap fun exchange => encode exchange.2, outgoing, true⟩ ↔
      ∀ exchange ∈ exchanges, left exchange.2 = [] := by
  induction exchanges generalizing outgoing with
  | nil => simp [InSync]
  | cons exchange rest ih =>
    obtain ⟨command, r⟩ := exchange
    obtain ⟨outgoing', hcall⟩ := h (command, r) List.mem_cons_self
      (rest.flatMap fun exchange => encode exchange.2) outgoing
    have ih := @ih outgoing' fun exchange he => h exchange (List.mem_cons_of_mem _ he)
    simp only [List.flatMap_cons, InSync, hcall, List.forall_mem_cons, true_and, Bool.true_eq_false,
      false_or, List.append_left_eq_self]
    constructor
    · rintro ⟨hleft, hrest⟩
      rw [hleft, List.nil_append] at hrest
      exact ⟨hleft, ih.mp hrest⟩
    · rintro ⟨hleft, hrest⟩
      refine ⟨hleft, ?_⟩
      rw [hleft, List.nil_append]
      exact ih.mpr hrest

end Framing
