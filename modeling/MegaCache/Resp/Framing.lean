import MegaCache.Resp.GoClient
import MegaCache.Resp.PythonClient

/-!
# Calls and replies stay together

Both clients stop reading at the first element of a reply that is not a value and keep
the connection open.  They are in sync with their server as long as nothing of the
reply comes after that element.
-/

namespace MegaCache.Resp

open Framing

/-- Replies that a client may be sent, each after a command. -/
def Exchanges {P : Type} (limits : Limits) (exchanges : List (List P × Reply)) : Prop :=
  ∀ exchange ∈ exchanges, exchange.1 ≠ [] ∧ exchange.2.WellFormed limits maxResponseDepth ∧
    exchange.2.encode.length ≤ maxResponseBytes

/-- The stream of all replies, before the first call. -/
def fresh {P : Type} (exchanges : List (List P × Reply)) (outgoing : Bytes) : Connection :=
  ⟨exchanges.flatMap fun exchange => exchange.2.encode, outgoing, true⟩

/-- On both clients, the calls stay in sync with well-formed replies if and only if in
every reply nothing follows the first element that is an error, or, in Python, a simple
string that is not UTF-8. -/
theorem clients_in_sync (python : List (List Python.CommandPart × Reply))
    (go : List (List Go.CommandPart × Reply)) (outgoing : Bytes) :
    (Exchanges Python.limits python →
      (InSync Reply.encode (Reply.outcome Python.decodeUtf8) Python.command python
          (fresh python outgoing) ↔
        ∀ exchange ∈ python, exchange.2.Aligned Python.decodeUtf8)) ∧
    (Exchanges Go.limits go →
      (InSync Reply.encode (Reply.outcome some) Go.commandLocked go (fresh go outgoing) ↔
        ∀ exchange ∈ go, exchange.2.Aligned some)) := by
  constructor
  · intro h
    refine (inSync_iff (Reply.left Python.decodeUtf8) ?_).trans ?_
    · intro exchange he rest outgoing
      obtain ⟨hparts, hwf, hsize⟩ := h exchange he
      exact ⟨_, Python.command_run hparts hwf hsize rest outgoing⟩
    · exact forall₂_congr fun exchange _ => left_eq_nil exchange.2
  · intro h
    refine (inSync_iff (Reply.left some) ?_).trans ?_
    · intro exchange he rest outgoing
      obtain ⟨hparts, hwf, hsize⟩ := h exchange he
      exact ⟨_, Go.commandLocked_run hparts hwf hsize rest outgoing⟩
    · exact forall₂_congr fun exchange _ => left_eq_nil exchange.2

/-- An array whose first item is the error `E` and whose second is the number 7. -/
def brokenArray : Reply := .array [.error [69], .int false 7]

/-- Two calls, of which the first gets `brokenArray` and the second `+P`. -/
def brokenExchanges {P : Type} (ping : P) : List (List P × Reply) :=
  [([ping], brokenArray), ([ping], .simple [80])]

theorem brokenExchanges_wellFormed {P : Type} (ping : P) {limits : Limits} (hline : 3 ≤ limits.line)
    (h7 : limits.number 7) : Exchanges limits (brokenExchanges ping) := by
  have harray : brokenArray.WellFormed limits maxResponseDepth := by
    refine .array (by decide) ?_
    intro r hr
    simp only [List.mem_cons, List.not_mem_nil, or_false] at hr
    rcases hr with rfl | rfl
    · exact .error ⟨by decide, by decide, hline⟩
    · exact .int false h7
  intro exchange he
  simp only [brokenExchanges, List.mem_cons, List.not_mem_nil, or_false] at he
  rcases he with rfl | rfl
  · exact ⟨by simp, harray, by show brokenArray.encode.length ≤ _; decide⟩
  · refine ⟨by simp, .simple ⟨by decide, by decide, hline⟩, ?_⟩
    show (Reply.simple [80]).encode.length ≤ _
    decide

/-- The second call answers 7, which is the tail of the reply to the first. -/
theorem error_item_breaks_framing :
    (Exchanges Python.limits (brokenExchanges (Python.CommandPart.text "PING")) ∧
      ¬InSync Reply.encode (Reply.outcome Python.decodeUtf8) Python.command
        (brokenExchanges (.text "PING")) (fresh (brokenExchanges (Python.CommandPart.text "PING")) []) ∧
      (Python.command [.text "PING"] (Python.command [.text "PING"]
        ⟨brokenArray.encode ++ (Reply.simple [80]).encode, [], true⟩).2).1 = .ok (.int 7)) ∧
    (Exchanges Go.limits (brokenExchanges (Go.CommandPart.text "PING")) ∧
      ¬InSync Reply.encode (Reply.outcome some) Go.commandLocked
        (brokenExchanges (.text "PING")) (fresh (brokenExchanges (Go.CommandPart.text "PING")) []) ∧
      (Go.commandLocked [.text "PING"] (Go.commandLocked [.text "PING"]
        ⟨brokenArray.encode ++ (Reply.simple [80]).encode, [], true⟩).2).1 = .ok (.int 7)) := by
  have hpython : Python.limits.number 7 := by
    show (Decimal.natText 7).length ≤ Decimal.maxStrDigits
    decide
  have hgo : Go.limits.number 7 := by
    show Decimal.Int64 7
    decide
  refine ⟨⟨brokenExchanges_wellFormed _ (by decide) hpython, ?_, by rfl⟩,
    ⟨brokenExchanges_wellFormed _ (by decide) hgo, ?_, by rfl⟩⟩
  · rintro (h | ⟨-, h | h, -⟩)
    · cases h
    · exact absurd h (by decide)
    · exact absurd h (by decide)
  · rintro (h | ⟨-, h | h, -⟩)
    · cases h
    · exact absurd h (by decide)
    · exact absurd h (by decide)

/-- An error at the very end of a reply does no harm. -/
theorem trailing_error_in_sync :
    InSync Reply.encode (Reply.outcome some) Go.commandLocked
      [([.text "PING"], .array [.int false 7, .error [69]]), ([.text "PING"], .simple [80])]
      (fresh [([Go.CommandPart.text "PING"], .array [.int false 7, .error [69]]),
        ([.text "PING"], .simple [80])] []) := by
  refine ((clients_in_sync [] _ []).2 ?_).mpr ?_
  · intro exchange he
    simp only [List.mem_cons, List.not_mem_nil, or_false] at he
    rcases he with rfl | rfl
    · refine ⟨by simp, .array (by decide) ?_, by decide⟩
      intro r hr
      simp only [List.mem_cons, List.not_mem_nil, or_false] at hr
      rcases hr with rfl | rfl
      · exact .int false (by show Decimal.Int64 7; decide)
      · exact .error ⟨by decide, by decide, by decide⟩
    · exact ⟨by simp, .simple ⟨by decide, by decide, by decide⟩, by decide⟩
  · simp [Reply.Aligned, AlignedItems, Reply.outcome]

end MegaCache.Resp
