-- Source text as a list of characters, measured in bytes. A script is stored as
-- UTF-8, so every offset that is reported counts bytes, while the scanners walk
-- over whole characters and so never stop inside one.

namespace ScriptMinifier

abbrev Text := List Char

namespace Text

/-! ## Sizes in bytes -/

/-- How many bytes the text takes up in UTF-8. -/
def byteSize (text : Text) : Nat := text.foldr (fun c size => c.utf8Size + size) 0

@[simp]
theorem byteSize_nil : byteSize [] = 0 := rfl

@[simp]
theorem byteSize_cons (c : Char) (text : Text) :
    byteSize (c :: text) = c.utf8Size + byteSize text :=
  rfl

@[simp]
theorem byteSize_append (left right : Text) :
    byteSize (left ++ right) = byteSize left + byteSize right := by
  induction left with
  | nil => simp
  | cons c rest ih => simp [ih, Nat.add_assoc]

theorem length_le_byteSize (text : Text) : text.length ≤ byteSize text := by
  induction text with
  | nil => simp
  | cons c rest ih =>
    have := c.utf8Size_pos
    simp
    omega

/-- Only the empty text has no bytes. -/
theorem byteSize_eq_zero_iff (text : Text) : byteSize text = 0 ↔ text = [] := by
  constructor
  · intro h
    have := length_le_byteSize text
    exact List.eq_nil_of_length_eq_zero (by omega)
  · rintro rfl
    rfl

/-! ## Cutting at a byte offset -/

/-- How many characters start before the given byte, on top of `count`. -/
def charsBefore : (bytes : Nat) → (text : Text) → (count : Nat) → Nat
  | _, [], count => count
  | 0, _ :: _, count => count
  | bytes + 1, c :: text, count => charsBefore (bytes + 1 - c.utf8Size) text (count + 1)

/-- The characters that start before the given byte. -/
def takeBytes (bytes : Nat) (text : Text) : Text := text.take (charsBefore bytes text 0)

/-- The characters that start at the given byte or after it. -/
def dropBytes (bytes : Nat) (text : Text) : Text := text.drop (charsBefore bytes text 0)

theorem takeBytes_append_dropBytes (bytes : Nat) (text : Text) :
    takeBytes bytes text ++ dropBytes bytes text = text :=
  List.take_append_drop _ _

theorem charsBefore_add (bytes : Nat) (text : Text) (count extra : Nat) :
    charsBefore bytes text (count + extra) = charsBefore bytes text count + extra := by
  fun_induction charsBefore bytes text count with
  | case1 => rfl
  | case2 => rfl
  | case3 bytes c text count ih =>
    rw [charsBefore, ← ih]
    congr 1
    omega

/-- A cut at the end of a part gives back that part. -/
theorem charsBefore_byteSize_append (left right : Text) :
    charsBefore (byteSize left) (left ++ right) 0 = left.length := by
  induction left with
  | nil => cases right <;> simp [charsBefore]
  | cons c rest ih =>
    have hc := c.utf8Size_pos
    obtain ⟨k, hk⟩ : ∃ k, byteSize (c :: rest) = k + 1 :=
      ⟨byteSize (c :: rest) - 1, by rw [byteSize_cons]; omega⟩
    rw [hk, List.cons_append, charsBefore, ← hk, byteSize_cons, Nat.add_sub_cancel_left,
      charsBefore_add, ih, List.length_cons]

@[simp]
theorem takeBytes_byteSize_append (left right : Text) :
    takeBytes (byteSize left) (left ++ right) = left := by
  simp [takeBytes, charsBefore_byteSize_append]

@[simp]
theorem dropBytes_byteSize_append (left right : Text) :
    dropBytes (byteSize left) (left ++ right) = right := by
  simp [dropBytes, charsBefore_byteSize_append]

/-- The characters from one byte offset up to another. -/
def slice (text : Text) (start stop : Nat) : Text :=
  takeBytes (stop - start) (dropBytes start text)

/-- A part is what its two offsets cut out. -/
theorem slice_append (before part after : Text) :
    slice (before ++ part ++ after) (byteSize before) (byteSize before + byteSize part) = part := by
  rw [slice, Nat.add_sub_cancel_left, List.append_assoc, dropBytes_byteSize_append,
    takeBytes_byteSize_append]

end Text

end ScriptMinifier
