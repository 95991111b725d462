import MegaCache.Events.Replay

/-!
# Framed names and signed bytes

Keys of checkpoints and of delivery claims are sequences of framed parts, and so are the
bytes that a webhook signature covers.  Neither can be read in two ways, whatever digits,
colons or prefixes the parts contain.
-/

namespace MegaCache
namespace Events

/-! ## Keys -/

theorem frame_ne_nil (part : String) : (frame part).toList ≠ [] := by
  rw [toList_frame]
  simp

/-- The frames of a list end where the text ends. -/
theorem join_frames_injective :
    Function.Injective fun parts : List String => (String.join (parts.map frame)).toList := by
  intro parts parts' h
  induction parts generalizing parts' with
  | nil =>
    cases parts' with
    | nil => rfl
    | cons part' parts' =>
      have hnil : (frame part').toList ++ (String.join (parts'.map frame)).toList = [] := by
        simpa using h.symm
      exact absurd (List.append_eq_nil_iff.mp hnil).1 (frame_ne_nil part')
  | cons part parts ih =>
    cases parts' with
    | nil =>
      have hnil : (frame part).toList ++ (String.join (parts.map frame)).toList = [] := by
        simpa using h
      exact absurd (List.append_eq_nil_iff.mp hnil).1 (frame_ne_nil part)
    | cons part' parts' =>
      have hboth : (frame part).toList ++ (String.join (parts.map frame)).toList =
          (frame part').toList ++ (String.join (parts'.map frame)).toList := by
        simpa using h
      obtain ⟨rfl, hrest⟩ := frame_append_inj hboth
      rw [ih hrest]

theorem lengthFramedKey_injective : Function.Injective lengthFramedKey := by
  intro parts parts' h
  have hchars := congrArg String.toList h
  simp only [lengthFramedKey, String.toList_append, List.append_cancel_left_eq] at hchars
  exact join_frames_injective hchars

/-! ## Signed bytes -/

/-- What the loop of `ByteArray.toList` adds to the bytes it has. -/
theorem toList_loop (bytes : ByteArray) (i : ℕ) (done : List UInt8) :
    ByteArray.toList.loop bytes i done = done.reverse ++ bytes.data.toList.drop i := by
  fun_induction ByteArray.toList.loop bytes i done with
  | case1 i done h ih =>
    have hlength : i < bytes.data.toList.length := h
    have hget : bytes.get! i = bytes.data.toList[i] := getElem!_pos bytes.data i h
    rw [ih, List.drop_eq_getElem_cons hlength, List.reverse_cons, List.append_assoc, hget]
    rfl
  | case2 i done h =>
    have hlength : bytes.data.toList.length ≤ i := not_lt.mp h
    rw [List.drop_eq_nil_of_le hlength, List.append_nil]

theorem textBytes_injective : Function.Injective textBytes := by
  intro s s' h
  simp only [textBytes, ByteArray.toList, toList_loop, List.reverse_nil, List.nil_append,
    List.drop_zero] at h
  exact String.toByteArray_inj.mp (ByteArray.ext (Array.toList_inj.mp h))

theorem colon_notMem_natText (n : ℕ) : 58 ∉ Decimal.natText n := by
  intro h
  have hdigit := Decimal.natText_isDigit h
  revert hdigit
  decide

/-- A framed part and what follows it can be read back. -/
theorem framed_append_inj {part part' rest rest' : List UInt8}
    (h : framed part ++ rest = framed part' ++ rest') : part = part' ∧ rest = rest' := by
  simp only [framed, List.append_assoc, List.cons_append] at h
  obtain ⟨hdigits, hbytes⟩ :=
    append_separator_inj (colon_notMem_natText _) (colon_notMem_natText _) h
  have hlength : part.length = part'.length := by
    have hvalue := congrArg Decimal.value hdigits
    simpa only [Decimal.value_natText] using hvalue
  exact List.append_inj hbytes hlength

theorem webhookSignaturePayload_inj {source source' timestamp timestamp' delivery delivery' : String}
    {body body' : List UInt8}
    (h : webhookSignaturePayload source timestamp delivery body =
      webhookSignaturePayload source' timestamp' delivery' body') :
    source = source' ∧ timestamp = timestamp' ∧ delivery = delivery' ∧ body = body' := by
  simp only [webhookSignaturePayload, List.append_assoc, List.append_cancel_left_eq] at h
  obtain ⟨hsource, h⟩ := framed_append_inj h
  obtain ⟨htimestamp, h⟩ := framed_append_inj h
  obtain ⟨hdelivery, h⟩ := framed_append_inj h
  have hbody : framed body ++ [] = framed body' ++ [] := by simpa using h
  exact ⟨textBytes_injective hsource, textBytes_injective htimestamp,
    textBytes_injective hdelivery, (framed_append_inj hbody).1⟩

/-- What the signature of a request is over, if it is accepted with these parts. -/
def Request.signed (r : Request) (rawTimestamp delivery : String) : List UInt8 :=
  webhookSignaturePayload r.sourceName rawTimestamp delivery r.body

/-- Requests that are accepted with one signature are the same, unless their two different
messages have one HMAC. -/
theorem Authentic.identity_eq {V : Type} {a : Automation V} {r r' : Request} {now now' : ℚ}
    {source source' : WebhookSource} {rawTimestamp rawTimestamp' delivery delivery' : String}
    {timestamp timestamp' : ℤ}
    (h : Automation.Authentic a r now source rawTimestamp delivery timestamp)
    (h' : Automation.Authentic a r' now' source' rawTimestamp' delivery' timestamp')
    (hsignature : r.signature = r'.signature) :
    r.identity = r'.identity ∨
      r.signed rawTimestamp delivery ≠ r'.signed rawTimestamp' delivery' ∧
        a.hexdigest source.secret (r.signed rawTimestamp delivery) =
          a.hexdigest source'.secret (r'.signed rawTimestamp' delivery') := by
  have hdigest : a.hexdigest source.secret (r.signed rawTimestamp delivery) =
      a.hexdigest source'.secret (r'.signed rawTimestamp' delivery') := by
    have htexts := h.signed.symm.trans (hsignature.trans h'.signed)
    have hchars := congrArg String.toList (Option.some.inj htexts)
    simp only [String.toList_append, List.append_cancel_left_eq] at hchars
    exact String.toList_injective hchars
  by_cases hpayload : r.signed rawTimestamp delivery = r'.signed rawTimestamp' delivery'
  · obtain ⟨hsource, htimestamp, hdelivery, hbody⟩ := webhookSignaturePayload_inj hpayload
    left
    simp only [Request.identity, h.dated, h'.dated, h.delivered, h'.delivered, hsource, htimestamp,
      hdelivery, hbody]
  · exact .inr ⟨hpayload, hdigest⟩

/-- Framed parts can be told apart: keys of any number of parts, the bytes a signature
covers, the checkpoints of streams, the claims of deliveries and signed requests. -/
theorem framing {V : Type} (a : Automation V) :
    Function.Injective lengthFramedKey ∧
    (∀ source source' timestamp timestamp' delivery delivery' body body',
      webhookSignaturePayload source timestamp delivery body =
        webhookSignaturePayload source' timestamp' delivery' body' →
      source = source' ∧ timestamp = timestamp' ∧ delivery = delivery' ∧ body = body') ∧
    (∀ event event' : ChangeEvent, event.checkpointKey = event'.checkpointKey →
      event.source = event'.source ∧ event.stream = event'.stream) ∧
    (∀ (source source' : WebhookSource) (delivery delivery' : String) (now now' : ℚ),
      (Automation.claimOf source delivery now).key = (Automation.claimOf source' delivery' now').key →
      source.name = source'.name ∧ delivery = delivery') ∧
    ∀ (r r' : Request) (now now' : ℚ) (source source' : WebhookSource)
      (rawTimestamp rawTimestamp' delivery delivery' : String) (timestamp timestamp' : ℤ),
      Automation.Authentic a r now source rawTimestamp delivery timestamp →
      Automation.Authentic a r' now' source' rawTimestamp' delivery' timestamp' →
      r.signature = r'.signature →
      r.identity = r'.identity ∨
        r.signed rawTimestamp delivery ≠ r'.signed rawTimestamp' delivery' ∧
          a.hexdigest source.secret (r.signed rawTimestamp delivery) =
            a.hexdigest source'.secret (r'.signed rawTimestamp' delivery') := by
  refine ⟨lengthFramedKey_injective, fun _ _ _ _ _ _ _ _ => webhookSignaturePayload_inj, ?_, ?_, ?_⟩
  · intro event event' h
    exact lengthFramedKey_inj h
  · intro source source' delivery delivery' now now' h
    exact lengthFramedKey_inj h
  · intro r r' now now' source source' _ _ _ _ _ _ h h' hsignature
    exact Authentic.identity_eq h h' hsignature

example : lengthFramedKey ["1:a", ""] = "v2|3:1:a0:" := by decide

end Events
end MegaCache
