import Mathlib.Data.List.Forall2
import LinkPriority.Json.Number
import LinkPriority.Proofs.Json.Strings

/-! What is written is as the grammar has it. The decimal digits of a natural number have no leading zero and stand for
that number; an object in one line has its members between commas, and none of the blanks it might have. -/

namespace LinkPriority.Json

/-- The octets of a string are those of its characters. -/
theorem toList_toUTF8 (s : String) : s.toUTF8.data.toList = utf8 s.toList := by
  rw [String.toUTF8_eq_toByteArray, ← String.utf8Encode_toList, List.utf8Encode, List.toList_data_toByteArray]
  rfl

/-! ### Numbers -/

theorem NumberText.ofDigits_append (ds : List Nat) (d : Nat) : ofDigits (ds ++ [d]) = 10 * ofDigits ds + d := by
  rw [ofDigits, List.foldl_append, ofDigits]
  rfl

/-- The digits of a natural number: one or more, zero in front only if it is the only one. -/
theorem exists_digits (n : Nat) : ∃ ds, IsDigits ds ∧ (ds.head? = some 0 → ds = [0]) ∧
    digitChars ds = Nat.toDigits 10 n ∧ NumberText.ofDigits ds = n := by
  induction n using Nat.strongRecOn with
  | ind n ih =>
    by_cases hn : n < 10
    · refine ⟨[n], ⟨List.cons_ne_nil n [], by simpa using hn⟩, fun h => ?_, ?_, Nat.zero_add n⟩
      · rw [Option.some.inj h]
      · rw [Nat.toDigits_of_lt_base hn]
        rfl
    · obtain ⟨ds, ⟨hne, hdigits⟩, hzero, hchars, hvalue⟩ := ih (n / 10) (by omega)
      obtain ⟨d, rest, rfl⟩ := List.exists_cons_of_ne_nil hne
      refine ⟨d :: rest ++ [n % 10], ⟨List.cons_ne_nil _ _, fun e he => ?_⟩, fun h => ?_, ?_, ?_⟩
      · rcases List.mem_append.1 he with he | he
        · exact hdigits e he
        · rw [List.mem_singleton.1 he]
          omega
      · -- a leading zero would leave nothing but the last digit
        rw [hzero h] at hvalue
        have hsmall : 0 = n / 10 := hvalue
        omega
      · rw [Nat.toDigits_of_base_le (by decide) (Nat.not_lt.1 hn), ← hchars]
        exact List.map_append
      · rw [NumberText.ofDigits_append, hvalue]
        omega

/-- A natural number is written as one, and read as a word if it is one. -/
theorem exists_numberWritten (n : Nat) : ∃ text, NumberWritten text (toString n).toList ∧
    (n < UInt64.size → text.toWord? = some n) := by
  obtain ⟨ds, hdigits, hzero, hchars, hvalue⟩ := exists_digits n
  refine ⟨⟨false, ds, [], none⟩, ?_, fun hn => ?_⟩
  · have hwritten := NumberWritten.parts (List.mem_cons_self ..) hdigits hzero .none .none
    rw [List.nil_append, List.append_nil, List.append_nil, hchars] at hwritten
    rwa [Nat.toString_eq_ofList_toDigits, String.toList_ofList]
  · simp [NumberText.toWord?, hvalue, hn]

/-! ### Objects -/

/-- A member without blanks. -/
theorem written_member {name text : String} {v : Value} (h : Written (.value v) text.toList) :
    Written (.member (some name) v) (quote name ++ ":" ++ text).toList := by
  have hnil : IsBlanks [] := List.forall_mem_nil _
  have hwritten := Written.member hnil (stringWritten_quote name) hnil (.item hnil h hnil)
  simpa using hwritten

/-- Members between commas. -/
theorem written_members {m : String × String} {members : List (String × String)} {w : Option String × Value}
    {values : List (Option String × Value)}
    (hfirst : Written (.member w.1 w.2) (quote m.1 ++ ":" ++ m.2).toList)
    (h : List.Forall₂ (fun m w => Written (.member w.1 w.2) (quote m.1 ++ ":" ++ m.2).toList) members values) :
    Written (.members (w :: values))
      (separated "," ((m :: members).map fun (name, text) => quote name ++ ":" ++ text)).toList := by
  induction h generalizing m w with
  | nil =>
    rw [List.map_singleton, separated, String.toList_intercalate, List.map_singleton, List.intercalate_singleton]
    exact .lastMember hfirst
  | @cons m' w' members values hhead htail ih =>
    have hwritten := Written.moreMembers hfirst (ih hhead)
    rw [List.map_cons, separated, List.map_cons, String.intercalate_cons_cons, String.toList_append,
      String.toList_append, List.append_assoc]
    exact hwritten

/-- An object in one line. -/
theorem written_compactObject {members : List (String × String)} {values : List (Option String × Value)}
    (h : List.Forall₂ (fun m w => w.1 = some m.1 ∧ Written (.value w.2) m.2.toList) members values) :
    Written (.value (.object values)) (compactObject members).toList := by
  have hmembers : List.Forall₂ (fun m w => Written (.member w.1 w.2) (quote m.1 ++ ":" ++ m.2).toList)
      members values := h.imp fun m w hw => by
    rw [hw.1]
    exact written_member hw.2
  rw [compactObject, String.toList_append, String.toList_append]
  cases hmembers with
  | nil => exact .emptyObject (List.forall_mem_nil _)
  | cons hhead htail => exact .object (written_members hhead htail)

end LinkPriority.Json
