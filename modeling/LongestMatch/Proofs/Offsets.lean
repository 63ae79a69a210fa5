import LongestMatch.Text.Offset

/-!
# Sound byte offsets

A text is cut at a byte offset exactly where it falls apart into a text of so many bytes and a rest
(`cut?_eq_some_iff`).
-/

namespace LongestMatch

namespace Offset

variable {chars before after : List Char}

theorem utf8ByteSize_cons (c : Char) (chars : List Char) :
    (String.ofList (c :: chars)).utf8ByteSize =
      c.utf8Size + (String.ofList chars).utf8ByteSize := by
  rw [String.ofList_cons, String.utf8ByteSize_append, String.utf8ByteSize_singleton]

theorem utf8ByteSize_ofList_eq_zero : (String.ofList chars).utf8ByteSize = 0 ↔ chars = [] := by
  rw [String.utf8ByteSize_eq_zero_iff, String.ofList_eq_empty_iff]

theorem cutChars?_eq_some_iff {offset : Nat} :
    cutChars? chars offset = some (before, after) ↔
      chars = before ++ after ∧ (String.ofList before).utf8ByteSize = offset := by
  fun_induction cutChars? chars offset generalizing before with
  | case1 rest =>
    rw [utf8ByteSize_ofList_eq_zero]
    constructor
    · intro h
      cases h
      exact ⟨rfl, rfl⟩
    · intro h
      obtain ⟨hrest, rfl⟩ := h
      rw [hrest]
      rfl
  | case2 offset =>
    constructor
    · intro h
      cases h
    · intro h
      obtain ⟨hnil, hsize⟩ := h
      rw [(List.append_eq_nil_iff.1 hnil.symm).1] at hsize
      cases hsize
  | case3 c rest offset hle ih =>
    rw [Option.map_eq_some_iff]
    constructor
    · intro h
      obtain ⟨⟨within, after'⟩, hwithin, heq⟩ := h
      cases heq
      obtain ⟨rfl, hsize⟩ := ih.1 hwithin
      refine ⟨rfl, ?_⟩
      rw [utf8ByteSize_cons, hsize]
      omega
    · intro h
      obtain ⟨happend, hsize⟩ := h
      cases before with
      | nil => cases hsize
      | cons d within =>
        cases happend
        rw [utf8ByteSize_cons] at hsize
        exact ⟨(within, after), ih.2 ⟨rfl, by omega⟩, rfl⟩
  | case4 c rest offset hgt =>
    constructor
    · intro h
      cases h
    · intro h
      obtain ⟨happend, hsize⟩ := h
      cases before with
      | nil => cases hsize
      | cons d within =>
        cases happend
        rw [utf8ByteSize_cons] at hsize
        omega

/-- A text can be cut at an offset if it falls apart there. -/
theorem cut?_eq_some_iff {s before after : String} {offset : Nat} :
    cut? s offset = some (before, after) ↔
      s = before ++ after ∧ before.utf8ByteSize = offset := by
  rw [cut?, Option.map_eq_some_iff]
  constructor
  · intro h
    obtain ⟨⟨before, after⟩, hcut, heq⟩ := h
    cases heq
    obtain ⟨happend, hsize⟩ := cutChars?_eq_some_iff.1 hcut
    refine ⟨?_, hsize⟩
    rw [← String.ofList_append, ← happend, String.ofList_toList]
  · intro h
    obtain ⟨rfl, hsize⟩ := h
    refine ⟨(before.toList, after.toList), cutChars?_eq_some_iff.2 ⟨String.toList_append, ?_⟩, ?_⟩
    · rw [String.ofList_toList, hsize]
    · simp only [String.ofList_toList]

/-- The text between the offsets where it begins and ends. -/
theorem slice?_append (before within after : String) :
    slice? (before ++ within ++ after) before.utf8ByteSize
      (before.utf8ByteSize + within.utf8ByteSize) = some within := by
  have hbefore : cut? (before ++ within ++ after) before.utf8ByteSize =
      some (before, within ++ after) :=
    cut?_eq_some_iff.2 ⟨String.append_assoc, rfl⟩
  have hwithin : cut? (within ++ after) within.utf8ByteSize = some (within, after) :=
    cut?_eq_some_iff.2 ⟨rfl, rfl⟩
  rw [slice?, if_pos (Nat.le_add_right _ _), hbefore, Nat.add_sub_cancel_left]
  show (cut? (within ++ after) within.utf8ByteSize).bind _ = _
  rw [hwithin]
  rfl

end Offset

end LongestMatch
