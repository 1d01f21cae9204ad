import ClassAudit.Text.Basic
/-!
# Byte offsets of a text

The bytes of a text in UTF-8, and the offsets at which its characters start and
end.  A text is cut at two offsets only if both are boundaries between its
characters, and an ASCII byte is never a part of a longer character.
-/

namespace ClassAudit.Text

theorem byteSize_append (front back : Text) :
    byteSize (front ++ back) = byteSize front + byteSize back := by
  induction front with
  | nil => simp [byteSize]
  | cons c front ih => rw [List.cons_append, byteSize, byteSize, ih, Nat.add_assoc]

/-! ## Boundaries and slices -/

/-- Whether a byte offset is the end of a text or the start of one of its characters. -/
def IsBoundary (text : Text) (offset : Nat) : Prop :=
  String.Pos.Raw.IsValid (String.ofList text) ⟨offset⟩

theorem utf8ByteSize_ofList (text : Text) : (String.ofList text).utf8ByteSize = byteSize text := by
  induction text with
  | nil => rfl
  | cons c text ih =>
    rw [String.ofList_cons, String.utf8ByteSize_append, String.utf8ByteSize_singleton, ih, byteSize]

theorem isBoundary_iff {text : Text} {offset : Nat} :
    IsBoundary text offset ↔ ∃ front back, text = front ++ back ∧ byteSize front = offset := by
  unfold IsBoundary
  rw [String.Pos.Raw.isValid_ofList]
  simp only [utf8ByteSize_ofList]
  constructor
  · rintro ⟨count, hcount⟩
    exact ⟨text.take count, text.drop count, (List.take_append_drop count text).symm, hcount.symm⟩
  · rintro ⟨front, back, rfl, hsize⟩
    exact ⟨front.length, by rw [List.take_left, hsize]⟩

/-- Whether `part` is what a text has from a byte offset on. -/
def StandsAt (text : Text) (offset : Nat) (part : Text) : Prop :=
  ∃ front, text = front ++ part ∧ byteSize front = offset

theorem StandsAt.start (text : Text) : StandsAt text 0 text :=
  ⟨[], rfl, rfl⟩

theorem StandsAt.behind {text front part : Text} {offset : Nat}
    (h : StandsAt text offset (front ++ part)) : StandsAt text (offset + byteSize front) part := by
  obtain ⟨before, rfl, rfl⟩ := h
  exact ⟨before ++ front, (List.append_assoc ..).symm, byteSize_append before front⟩

/-- The parts of a text before and after a boundary. -/
def cutAt? : (offset : Nat) → Text → Option (Text × Text)
  | 0, text => some ([], text)
  | _ + 1, [] => none
  | offset + 1, c :: rest =>
    if c.utf8Size ≤ offset + 1 then
      (cutAt? (offset + 1 - c.utf8Size) rest).map fun parts => (c :: parts.1, parts.2)
    else none

/-- The part of a text between two byte offsets; none if one of them is no boundary or if they are
out of order. -/
def slice? (text : Text) (start stop : Nat) : Option Text := do
  let (front, _) ← cutAt? stop text
  let (_, part) ← cutAt? start front
  return part

theorem cutAt?_append (front back : Text) :
    cutAt? (byteSize front) (front ++ back) = some (front, back) := by
  induction front with
  | nil => simp [byteSize, cutAt?]
  | cons c front ih =>
    obtain ⟨size, hsize⟩ : ∃ size, byteSize (c :: front) = size + 1 :=
      Nat.exists_eq_succ_of_ne_zero (by have := c.utf8Size_pos; rw [byteSize]; omega)
    have hrest : size + 1 - c.utf8Size = byteSize front := by rw [← hsize, byteSize]; omega
    rw [hsize, List.cons_append, cutAt?, if_pos (by rw [← hsize, byteSize]; omega), hrest, ih]
    rfl

/-- A text is cut at an offset in one way. -/
theorem append_inj_of_byteSize {front back front' back' : Text}
    (h : front ++ back = front' ++ back') (hsize : byteSize front = byteSize front') :
    front = front' ∧ back = back' := by
  have hcut := cutAt?_append front back
  rw [h, hsize, cutAt?_append] at hcut
  obtain ⟨rfl, rfl⟩ := Prod.mk.inj (Option.some.inj hcut)
  exact ⟨rfl, rfl⟩

theorem eq_append_of_cutAt? {offset : Nat} {text front back : Text}
    (h : cutAt? offset text = some (front, back)) :
    text = front ++ back ∧ byteSize front = offset := by
  fun_induction cutAt? offset text generalizing front with
  | case1 text =>
    cases h
    exact ⟨rfl, rfl⟩
  | case2 offset => cases h
  | case3 offset c rest hsize ih =>
    obtain ⟨⟨front, back⟩, hcut, hparts⟩ := Option.map_eq_some_iff.1 h
    cases hparts
    obtain ⟨rfl, hfront⟩ := ih hcut
    refine ⟨rfl, ?_⟩
    rw [byteSize, hfront]
    omega
  | case4 offset c rest hsize => cases h

/-- A slice is taken exactly between the parts that the text has before and after it. -/
theorem slice?_eq_some_iff {text part : Text} {start stop : Nat} :
    slice? text start stop = some part ↔ ∃ front back, text = front ++ part ++ back ∧
      byteSize front = start ∧ byteSize (front ++ part) = stop := by
  unfold slice?
  constructor
  · intro h
    obtain ⟨⟨whole, back⟩, hstop, hrest⟩ := Option.bind_eq_some_iff.1 h
    obtain ⟨⟨front, rest⟩, hstart, hpart⟩ := Option.bind_eq_some_iff.1 hrest
    obtain ⟨rfl, hsize⟩ := eq_append_of_cutAt? hstop
    obtain ⟨rfl, hfront⟩ := eq_append_of_cutAt? hstart
    obtain rfl : rest = part := Option.some.inj hpart
    exact ⟨front, back, rfl, hfront, hsize⟩
  · rintro ⟨front, back, rfl, rfl, rfl⟩
    rw [cutAt?_append (front ++ part)]
    show (cutAt? (byteSize front) (front ++ part)).bind _ = _
    rw [cutAt?_append front part]
    rfl

/-- A slice exists exactly between two boundaries in order. -/
theorem isSome_slice?_iff {text : Text} {start stop : Nat} :
    (slice? text start stop).isSome ↔
      IsBoundary text start ∧ IsBoundary text stop ∧ start ≤ stop := by
  simp only [Option.isSome_iff_exists, slice?_eq_some_iff, isBoundary_iff]
  constructor
  · rintro ⟨part, front, back, rfl, rfl, rfl⟩
    refine ⟨⟨front, part ++ back, List.append_assoc _ _ _, rfl⟩, ⟨_, back, rfl, rfl⟩, ?_⟩
    rw [byteSize_append]
    omega
  · rintro ⟨⟨front, rest, rfl, rfl⟩, ⟨whole, back, htext, rfl⟩, hle⟩
    rcases List.append_eq_append_iff.1 htext with ⟨part, rfl, rfl⟩ | ⟨part, rfl, rfl⟩
    · exact ⟨part, front, back, htext, rfl, rfl⟩
    · have hpart : part = [] := by
        cases part with
        | nil => rfl
        | cons c part =>
          have := c.utf8Size_pos
          rw [byteSize_append, byteSize] at hle
          omega
      subst hpart
      exact ⟨[], whole, rest, by simp, by simp, by simp⟩

/-! ## Searching -/

/-- The byte offset of the first character with a property. -/
def offsetOf? (p : Char → Bool) : Text → Option Nat
  | [] => none
  | c :: rest => if p c then some 0 else (offsetOf? p rest).map (c.utf8Size + ·)

/-- The byte offset of the last character with a property. -/
def lastOffsetOf? (p : Char → Bool) : Text → Option Nat
  | [] => none
  | c :: rest =>
    match lastOffsetOf? p rest with
    | some offset => some (c.utf8Size + offset)
    | none => if p c then some 0 else none

section Search

variable {p : Char → Bool}

theorem offsetOf?_eq_none {text : Text} (h : ∀ c ∈ text, p c = false) :
    offsetOf? p text = none := by
  induction text with
  | nil => rfl
  | cons c text ih =>
    obtain ⟨hc, htext⟩ := List.forall_mem_cons.1 h
    rw [offsetOf?, ih htext, hc]
    rfl

theorem offsetOf?_append {front : Text} (hfront : ∀ c ∈ front, p c = false) {c : Char}
    (hc : p c = true) (rest : Text) : offsetOf? p (front ++ c :: rest) = some (byteSize front) := by
  induction front with
  | nil => exact if_pos hc
  | cons d front ih =>
    obtain ⟨hd, hfront⟩ := List.forall_mem_cons.1 hfront
    rw [List.cons_append, offsetOf?, ih hfront, hd]
    rfl

theorem exists_of_offsetOf? {text : Text} {offset : Nat} (h : offsetOf? p text = some offset) :
    ∃ front c rest, text = front ++ c :: rest ∧ p c = true ∧ byteSize front = offset := by
  induction text generalizing offset with
  | nil => cases h
  | cons c text ih =>
    rw [offsetOf?] at h
    split at h
    · rename_i hc
      cases h
      exact ⟨[], c, text, rfl, hc, rfl⟩
    · obtain ⟨later, hlater, rfl⟩ := Option.map_eq_some_iff.1 h
      obtain ⟨front, d, rest, rfl, hd, rfl⟩ := ih hlater
      exact ⟨c :: front, d, rest, rfl, hd, rfl⟩

theorem lastOffsetOf?_eq_none {text : Text} (h : ∀ c ∈ text, p c = false) :
    lastOffsetOf? p text = none := by
  induction text with
  | nil => rfl
  | cons c text ih =>
    obtain ⟨hc, htext⟩ := List.forall_mem_cons.1 h
    rw [lastOffsetOf?, ih htext, hc]
    rfl

theorem lastOffsetOf?_append (front : Text) {c : Char} (hc : p c = true) {rest : Text}
    (hrest : ∀ d ∈ rest, p d = false) :
    lastOffsetOf? p (front ++ c :: rest) = some (byteSize front) := by
  induction front with
  | nil =>
    rw [List.nil_append, lastOffsetOf?, lastOffsetOf?_eq_none hrest]
    exact if_pos hc
  | cons d front ih =>
    rw [List.cons_append, lastOffsetOf?, ih]
    rfl

end Search

/-! ## Bytes -/

/-- The bytes of a text in UTF-8. -/
def bytes (text : Text) : List UInt8 :=
  text.flatMap String.utf8EncodeChar

/-- The text that bytes encode, if they encode one. -/
def ofBytes? (bytes : List UInt8) : Option Text :=
  bytes.toByteArray.utf8Decode?.map Array.toList

theorem bytes_append (front back : Text) : bytes (front ++ back) = bytes front ++ bytes back :=
  List.flatMap_append

theorem bytes_cons (c : Char) (rest : Text) :
    bytes (c :: rest) = String.utf8EncodeChar c ++ bytes rest := rfl

theorem ofBytes?_bytes (text : Text) : ofBytes? (bytes text) = some text := by
  have hdecode : (bytes text).toByteArray.utf8Decode? = some text.toArray :=
    List.utf8Decode?_utf8Encode
  unfold ofBytes?
  rw [hdecode]
  rfl

theorem length_bytes (text : Text) : (bytes text).length = byteSize text := by
  induction text with
  | nil => rfl
  | cons c text ih =>
    rw [bytes_cons, List.length_append, String.length_utf8EncodeChar, ih, byteSize]

theorem StandsAt.getElem?_bytes {text part : Text} {offset : Nat} (h : StandsAt text offset part)
    (index : Nat) : (bytes text)[offset + index]? = (bytes part)[index]? := by
  obtain ⟨front, rfl, rfl⟩ := h
  rw [bytes_append, List.getElem?_append_right (by rw [length_bytes]; omega), length_bytes,
    Nat.add_sub_cancel_left]

theorem val_le_iff {c : Char} : c.val.toNat ≤ 127 ↔ isAscii c = true := by
  unfold isAscii
  rw [decide_eq_true_iff]
  exact Nat.lt_succ_iff.symm

theorem utf8EncodeChar_of_isAscii {c : Char} (h : isAscii c = true) :
    String.utf8EncodeChar c = [c.toUInt8] :=
  if_pos (val_le_iff.2 h)

theorem utf8Size_of_isAscii {c : Char} (h : isAscii c = true) : c.utf8Size = 1 := by
  rw [← String.length_utf8EncodeChar, utf8EncodeChar_of_isAscii h]
  rfl

theorem bytes_ascii_cons {c : Char} (h : isAscii c = true) (rest : Text) :
    bytes (c :: rest) = c.toUInt8 :: bytes rest := by
  rw [bytes_cons, utf8EncodeChar_of_isAscii h]
  rfl

theorem toNat_toUInt8 {c : Char} (h : isAscii c = true) : c.toUInt8.toNat = c.toNat := by
  have hc : c.toNat < 128 := of_decide_eq_true h
  show c.toNat % 256 = c.toNat
  omega

theorem toUInt8_lt {c : Char} (h : isAscii c = true) : c.toUInt8 < 128 := by
  rw [UInt8.lt_iff_toNat_lt, toNat_toUInt8 h]
  exact of_decide_eq_true h

theorem toUInt8_eq_iff {c d : Char} (hc : isAscii c = true) (hd : isAscii d = true) :
    c.toUInt8 = d.toUInt8 ↔ c = d := by
  rw [← UInt8.toNat_inj, toNat_toUInt8 hc, toNat_toUInt8 hd, Char.toNat_inj]

/-- The bytes of a character that is not ASCII are not ASCII. -/
theorem wide_of_mem_utf8EncodeChar {c : Char} (h : isAscii c = false) {byte : UInt8}
    (hbyte : byte ∈ String.utf8EncodeChar c) : 128 ≤ byte := by
  have hc : ¬ c.val.toNat ≤ 127 := by
    rw [val_le_iff, h]
    decide
  -- Whatever their number, each byte is some bits of the code point behind a mark of 128 or more.
  have hmarked : ∃ value, byte = UInt8.ofNat value ∧ 128 ≤ value ∧ value < 256 := by
    unfold String.utf8EncodeChar at hbyte
    simp only [if_neg hc] at hbyte
    split at hbyte
    · simp only [List.mem_cons, List.not_mem_nil, or_false] at hbyte
      rcases hbyte with rfl | rfl
      all_goals exact ⟨_, rfl, by omega, by omega⟩
    · split at hbyte
      all_goals
        simp only [List.mem_cons, List.not_mem_nil, or_false] at hbyte
      · rcases hbyte with rfl | rfl | rfl
        all_goals exact ⟨_, rfl, by omega, by omega⟩
      · rcases hbyte with rfl | rfl | rfl | rfl
        all_goals exact ⟨_, rfl, by omega, by omega⟩
  obtain ⟨value, rfl, hlow, hhigh⟩ := hmarked
  rw [UInt8.le_iff_toNat_le, UInt8.toNat_ofNat', Nat.mod_eq_of_lt hhigh]
  exact hlow

theorem exists_wide_cons {c : Char} (h : isAscii c = false) :
    ∃ byte rest, String.utf8EncodeChar c = byte :: rest ∧ 128 ≤ byte := by
  cases hbytes : String.utf8EncodeChar c with
  | nil =>
    have hsize := String.length_utf8EncodeChar c
    rw [hbytes] at hsize
    exact absurd hsize (Nat.ne_of_lt c.utf8Size_pos)
  | cons byte rest =>
    refine ⟨byte, rest, rfl, wide_of_mem_utf8EncodeChar h ?_⟩
    rw [hbytes]
    exact List.mem_cons_self

theorem exists_of_bytes_eq_cons {text : Text} {c : Char} (hc : isAscii c = true)
    {rest : List UInt8} (h : bytes text = c.toUInt8 :: rest) : ∃ later, text = c :: later := by
  cases text with
  | nil => cases h
  | cons d later =>
    cases hd : isAscii d with
    | true =>
      rw [bytes_ascii_cons hd] at h
      exact ⟨later, by rw [(toUInt8_eq_iff hd hc).1 (List.cons.inj h).1]⟩
    | false =>
      -- The first byte of a longer character is not ASCII.
      obtain ⟨byte, tail, hbytes, hwide⟩ := exists_wide_cons hd
      rw [bytes_cons, hbytes] at h
      rw [(List.cons.inj h).1] at hwide
      exact absurd (toUInt8_lt hc) (UInt8.not_lt.2 hwide)

end ClassAudit.Text
