import ClassAudit.Proofs.Css.Lexemes
/-!
# The bytes of a masked sheet

A sheet can be masked byte by byte, without looking at its characters: a byte
that is not ASCII is kept, or blanked in a comment, and what comes out is again
the bytes of a text.  That text is the masked text, so it has as many bytes as
the sheet, and a byte that starts a character of the sheet starts one of the
masked text.
-/

namespace ClassAudit.Css

open Text (bytes byteSize isAscii)

/-! ## Masking bytes -/

/-- Masks the rest of the bytes of a style sheet from an offset on.  A backslash takes the next
byte with it if that is ASCII. -/
def maskBytesFrom : MaskMode → Nat → List UInt8 → Except Fault (List UInt8)
  | .sheet, _, [] => .ok []
  | .comment start, _, [] => .error (.unterminatedComment start)
  | .string start _, _, [] => .error (.unterminatedString start)
  | .sheet, offset, 0x5C :: next :: rest =>
    if next < 128 then (maskBytesFrom .sheet (offset + 2) rest).map (0x5C :: next :: ·)
    else (maskBytesFrom .sheet (offset + 1) (next :: rest)).map (0x5C :: ·)
  | .sheet, offset, 0x2F :: 0x2A :: rest =>
    (maskBytesFrom (.comment offset) (offset + 2) rest).map (0x20 :: 0x20 :: ·)
  | .sheet, offset, byte :: rest =>
    let mode :=
      if byte = 0x22 then .string offset '"'
      else if byte = 0x27 then .string offset '\''
      else .sheet
    (maskBytesFrom mode (offset + 1) rest).map (byte :: ·)
  | .comment _, offset, 0x2A :: 0x2F :: rest =>
    (maskBytesFrom .sheet (offset + 2) rest).map (0x20 :: 0x20 :: ·)
  | .comment start, offset, _ :: rest =>
    (maskBytesFrom (.comment start) (offset + 1) rest).map (0x20 :: ·)
  | .string start quote, offset, 0x5C :: next :: rest =>
    if next < 128 then
      (maskBytesFrom (.string start quote) (offset + 2) rest).map (0x5F :: 0x5F :: ·)
    else (maskBytesFrom (.string start quote) (offset + 1) (next :: rest)).map (0x5F :: ·)
  | .string start quote, offset, byte :: rest =>
    if byte = 0x0A then .error (.unterminatedString start)
    else if byte = quote.toUInt8 then (maskBytesFrom .sheet (offset + 1) rest).map (byte :: ·)
    else
      let shown := if byte < 128 then 0x5F else byte
      (maskBytesFrom (.string start quote) (offset + 1) rest).map (shown :: ·)

/-- Masks the bytes of a style sheet.  Bytes that are no text are reported as a string that starts
the sheet. -/
def maskBytes (bytes : List UInt8) : Except Fault Text :=
  match maskBytesFrom .sheet 0 bytes with
  | .error fault => .error fault
  | .ok shown =>
    match Text.ofBytes? shown with
    | some text => .ok text
    | none => .error (.unterminatedString 0)

/-- What is shown of a byte that leaves the mode as it is. -/
def MaskMode.shownByte : MaskMode → UInt8 → UInt8
  | .sheet, byte => byte
  | .comment _, _ => 0x20
  | .string _ _, byte => if byte < 128 then 0x5F else byte

/-- The cell of a character that leaves the mode as it is. -/
def MaskMode.cell : MaskMode → Char → Cell
  | .sheet, c => .plain c
  | .comment _, c => .blank c
  | .string _ _, c => .struck c

theorem map_map_congr {ε α β γ δ : Type} {x : Except ε α} {f : α → β} {f' : β → δ} {g : α → γ}
    {g' : γ → δ} (h : ∀ a, f' (f a) = g' (g a)) : (x.map f).map f' = (x.map g).map g' := by
  cases x with
  | error fault => rfl
  | ok a => exact congrArg Except.ok (h a)

/-! ## Bytes that are not ASCII -/

theorem maskBytesFrom_wide_cons {mode : MaskMode} (hmode : mode.Quoted) {byte : UInt8}
    (hbyte : 128 ≤ byte) (offset : Nat) (rest : List UInt8) :
    maskBytesFrom mode offset (byte :: rest) =
      (maskBytesFrom mode (offset + 1) rest).map (mode.shownByte byte :: ·) := by
  have hne : ∀ other < 128, byte ≠ other := by
    rintro other hother rfl
    exact absurd hother (UInt8.not_lt.2 hbyte)
  cases mode with
  | sheet =>
    rw [maskBytesFrom, if_neg (hne _ (by decide)), if_neg (hne _ (by decide))]
    · rfl
    · exact fun _ _ hescape => absurd hescape (hne _ (by decide))
    · exact fun _ hslash => absurd hslash (hne _ (by decide))
  | comment start =>
    rw [maskBytesFrom]
    · rfl
    · exact fun _ hstar => absurd hstar (hne _ (by decide))
  | string start quote =>
    have hquote : byte ≠ quote.toUInt8 := by
      rcases hmode start quote rfl with rfl | rfl
      all_goals exact hne _ (by decide)
    rw [maskBytesFrom, if_neg (hne _ (by decide)), if_neg hquote]
    · rfl
    · exact fun _ _ hescape => absurd hescape (hne _ (by decide))

theorem maskBytesFrom_wide_append {mode : MaskMode} (hmode : mode.Quoted) {wide : List UInt8}
    (hwide : ∀ byte ∈ wide, 128 ≤ byte) (offset : Nat) (rest : List UInt8) :
    maskBytesFrom mode offset (wide ++ rest) =
      (maskBytesFrom mode (offset + wide.length) rest).map (wide.map mode.shownByte ++ ·) := by
  induction wide generalizing offset with
  | nil => cases h : maskBytesFrom mode offset rest <;> simp [h, Except.map]
  | cons byte wide ih =>
    obtain ⟨hbyte, hwide⟩ := List.forall_mem_cons.1 hwide
    rw [List.cons_append, maskBytesFrom_wide_cons hmode hbyte, ih hwide, List.length_cons,
      Nat.add_right_comm, Nat.add_assoc]
    cases maskBytesFrom mode (offset + (wide.length + 1)) rest <;> rfl

/-! ## The bytes of cells -/

theorem bytes_blanks (count : Nat) :
    bytes (List.replicate count ' ') = List.replicate count 0x20 := by
  induction count with
  | zero => rfl
  | succ count ih => rw [List.replicate_succ, List.replicate_succ, ← ih]; rfl

/-- What a cell shows are the bytes that are shown of its source, one by one. -/
theorem bytes_cell (mode : MaskMode) (c : Char) :
    bytes (mode.cell c).render = (String.utf8EncodeChar c).map mode.shownByte := by
  have hself : bytes [c] = String.utf8EncodeChar c := List.append_nil _
  cases mode with
  | sheet =>
    rw [MaskMode.cell, render_plain, hself]
    exact (List.map_id _).symm
  | comment start =>
    show bytes (List.replicate c.utf8Size ' ') = _
    rw [bytes_blanks, ← String.length_utf8EncodeChar]
    exact List.map_const'.symm
  | string start quote =>
    rw [MaskMode.cell, render_struck, struckChar]
    cases hc : isAscii c with
    | true =>
      rw [Text.utf8EncodeChar_of_isAscii hc, List.map_singleton, MaskMode.shownByte,
        if_pos (Text.toUInt8_lt hc)]
      rfl
    | false =>
      have hkept : (String.utf8EncodeChar c).map (MaskMode.string start quote).shownByte =
          (String.utf8EncodeChar c).map id := by
        apply List.map_congr_left
        intro byte hbyte
        exact if_neg (UInt8.not_lt.2 (Text.wide_of_mem_utf8EncodeChar hc hbyte))
      rw [if_neg (by decide), hself, hkept, List.map_id]

theorem bytes_render_cell (mode : MaskMode) (c : Char) :
    bytes (render [mode.cell c]) = (String.utf8EncodeChar c).map mode.shownByte := by
  rw [← bytes_cell]
  exact congrArg bytes (List.append_nil _)

theorem bytes_render_ascii (mode : MaskMode) {c : Char} (h : isAscii c = true) :
    bytes (render [mode.cell c]) = [mode.shownByte c.toUInt8] := by
  rw [bytes_render_cell, Text.utf8EncodeChar_of_isAscii h]
  rfl

theorem maskBytesFrom_wide {mode : MaskMode} (hmode : mode.Quoted) {c : Char}
    (hc : isAscii c = false) (offset : Nat) (rest : Text) :
    maskBytesFrom mode offset (bytes (c :: rest)) =
      (maskBytesFrom mode (offset + c.utf8Size) (bytes rest)).map
        (bytes (render [mode.cell c]) ++ ·) := by
  rw [Text.bytes_cons, maskBytesFrom_wide_append hmode, String.length_utf8EncodeChar,
    bytes_render_cell]
  exact fun byte => Text.wide_of_mem_utf8EncodeChar hc

/-- A backslash takes the next character along, in a string and outside of one. -/
theorem maskBytesFrom_escape {mode : MaskMode} (hmode : mode.Quoted)
    (hcomment : ∀ start, mode ≠ .comment start) (c : Char) (offset : Nat) (rest : Text) :
    maskBytesFrom mode offset (bytes ('\\' :: c :: rest)) =
      (maskBytesFrom mode (offset + byteSize ['\\', c]) (bytes rest)).map
        (bytes (render [mode.cell '\\', mode.cell c]) ++ ·) := by
  have hsize : offset + byteSize ['\\', c] = offset + 1 + c.utf8Size :=
    (Nat.add_assoc offset 1 c.utf8Size).symm
  have hshown : bytes (render [mode.cell '\\', mode.cell c]) =
      mode.shownByte 0x5C :: bytes (render [mode.cell c]) := by
    rw [← List.singleton_append, render_append, Text.bytes_append, bytes_render_ascii mode rfl]
    rfl
  rw [hsize, hshown]
  cases hc : isAscii c with
  | true =>
    have hbytes : bytes ('\\' :: c :: rest) = 0x5C :: c.toUInt8 :: bytes rest := by
      rw [Text.bytes_ascii_cons rfl, Text.bytes_ascii_cons hc]
      rfl
    rw [hbytes, bytes_render_ascii mode hc, Text.utf8Size_of_isAscii hc]
    cases mode with
    | sheet =>
      rw [maskBytesFrom, if_pos (Text.toUInt8_lt hc)]
      rfl
    | comment start => exact absurd rfl (hcomment start)
    | string start quote =>
      rw [maskBytesFrom, if_pos (Text.toUInt8_lt hc), MaskMode.shownByte, MaskMode.shownByte,
        if_pos (Text.toUInt8_lt hc)]
      rfl
  | false =>
    -- The backslash stands alone, and the bytes behind it are kept as they are.
    obtain ⟨byte, tail, hbyte, hwide⟩ := Text.exists_wide_cons hc
    have hread := maskBytesFrom_wide hmode hc (offset + 1) rest
    have hbytes : bytes ('\\' :: c :: rest) = 0x5C :: byte :: (tail ++ bytes rest) := by
      rw [Text.bytes_ascii_cons rfl, Text.bytes_cons, hbyte]
      rfl
    rw [Text.bytes_cons, hbyte, List.cons_append] at hread
    rw [hbytes]
    cases mode with
    | sheet =>
      rw [maskBytesFrom, if_neg (UInt8.not_lt.2 hwide), hread]
      cases maskBytesFrom .sheet (offset + 1 + c.utf8Size) (bytes rest) <;> rfl
    | comment start => exact absurd rfl (hcomment start)
    | string start quote =>
      rw [maskBytesFrom, if_neg (UInt8.not_lt.2 hwide), hread]
      cases maskBytesFrom (.string start quote) (offset + 1 + c.utf8Size) (bytes rest) <;> rfl

/-! ## Masking characters and bytes -/

theorem escapes_no_byte {c : Char} (hc : isAscii c = true) {rest : Text}
    (h : c = '\\' → rest = []) :
    ∀ next later, c.toUInt8 = 0x5C → bytes rest = next :: later → False := by
  intro next later hslash hlater
  rw [h ((Text.toUInt8_eq_iff hc rfl).1 hslash)] at hlater
  cases hlater

theorem pairs_no_byte {c first second : Char} (hc : isAscii c = true)
    (hfirst : isAscii first = true) (hsecond : isAscii second = true) {rest : Text}
    (h : c = first → rest.head? ≠ some second) :
    ∀ later, c.toUInt8 = first.toUInt8 → bytes rest = second.toUInt8 :: later → False := by
  intro later hbyte hlater
  obtain ⟨tail, rfl⟩ := Text.exists_of_bytes_eq_cons hsecond hlater
  exact h ((Text.toUInt8_eq_iff hc hfirst).1 hbyte) rfl

theorem toUInt8_ne {c d : Char} (hc : isAscii c = true) (hd : isAscii d = true) (h : c ≠ d) :
    c.toUInt8 ≠ d.toUInt8 :=
  fun hbyte => h ((Text.toUInt8_eq_iff hc hd).1 hbyte)

theorem maskBytesFrom_ascii {mode next : MaskMode} (prior : MaskMode) {c : Char}
    (hc : isAscii c = true) {offset : Nat} {rest : Text}
    (h : maskBytesFrom mode offset (c.toUInt8 :: bytes rest) =
      (maskBytesFrom next (offset + 1) (bytes rest)).map (prior.shownByte c.toUInt8 :: ·)) :
    maskBytesFrom mode offset (bytes (c :: rest)) =
      (maskBytesFrom next (offset + byteSize [c]) (bytes rest)).map
        (bytes (render [prior.cell c]) ++ ·) := by
  rw [Text.bytes_ascii_cons hc, h, bytes_render_ascii prior hc, byteSize,
    Text.utf8Size_of_isAscii hc]
  rfl

/-- A step over characters is one over their bytes: a character that is not ASCII changes no mode,
and an ASCII character is one byte, which the two readers tell apart in the same way. -/
theorem MaskStep.maskBytesFrom_eq {mode next : MaskMode} {offset : Nat} {read rest : Text}
    {cells : List Cell} (h : MaskStep mode offset read rest cells next) (hmode : mode.Quoted) :
    maskBytesFrom mode offset (bytes (read ++ rest)) =
      (maskBytesFrom next (offset + byteSize read) (bytes rest)).map
        (bytes (render cells) ++ ·) := by
  cases h with
  | escape c => exact maskBytesFrom_escape hmode (by rintro _ ⟨⟩) c offset rest
  | openComment =>
    show maskBytesFrom .sheet offset (0x2F :: 0x2A :: bytes rest) = _
    rw [maskBytesFrom]
    rfl
  | openString quote hquote =>
    rcases hquote with rfl | rfl
    · show maskBytesFrom .sheet offset (0x22 :: bytes rest) = _
      rw [maskBytesFrom, if_pos rfl]
      · rfl
      · rintro _ _ ⟨⟩
      · rintro _ ⟨⟩
    · show maskBytesFrom .sheet offset (0x27 :: bytes rest) = _
      rw [maskBytesFrom, if_neg (by decide), if_pos rfl]
      · rfl
      · rintro _ _ ⟨⟩
      · rintro _ ⟨⟩
  | plain c hquote hescape hcomment =>
    cases hc : isAscii c with
    | true =>
      have hdouble : c.toUInt8 ≠ 0x22 := toUInt8_ne hc rfl (not_or.1 hquote).1
      have hsingle : c.toUInt8 ≠ 0x27 := toUInt8_ne hc rfl (not_or.1 hquote).2
      refine maskBytesFrom_ascii .sheet hc ?_
      rw [maskBytesFrom, if_neg hdouble, if_neg hsingle]
      · rfl
      · exact escapes_no_byte hc hescape
      · exact pairs_no_byte hc rfl rfl hcomment
    | false => exact maskBytesFrom_wide hmode hc offset rest
  | closeComment =>
    show maskBytesFrom _ offset (0x2A :: 0x2F :: bytes rest) = _
    rw [maskBytesFrom]
    rfl
  | @comment start _ c _ hend =>
    cases hc : isAscii c with
    | true =>
      refine maskBytesFrom_ascii (.comment start) hc ?_
      rw [maskBytesFrom]
      · rfl
      · exact pairs_no_byte hc rfl rfl hend
    | false => exact maskBytesFrom_wide hmode hc offset rest
  | escapeInString c => exact maskBytesFrom_escape hmode (by rintro _ ⟨⟩) c offset rest
  | closeString quote hescape hbreak =>
    have hc : isAscii quote = true := by
      rcases hmode _ quote rfl with rfl | rfl
      all_goals rfl
    have hbyte : quote.toUInt8 ≠ 0x0A := toUInt8_ne hc rfl hbreak
    refine maskBytesFrom_ascii .sheet hc ?_
    rw [maskBytesFrom, if_neg hbyte, if_pos rfl]
    · rfl
    · exact escapes_no_byte hc hescape
  | @string start _ quote c _ hescape hbreak hquote =>
    cases hc : isAscii c with
    | true =>
      have hascii : isAscii quote = true := by
        rcases hmode start quote rfl with rfl | rfl
        all_goals rfl
      have hbyte : c.toUInt8 ≠ 0x0A := toUInt8_ne hc rfl hbreak
      refine maskBytesFrom_ascii (.string start quote) hc ?_
      rw [maskBytesFrom, if_neg hbyte, if_neg (toUInt8_ne hc hascii hquote)]
      · rfl
      · exact escapes_no_byte hc hescape
    | false => exact maskBytesFrom_wide hmode hc offset rest

/-- Masking the bytes of a text gives the bytes of the masked text. -/
theorem maskBytesFrom_bytes {mode : MaskMode} (hmode : mode.Quoted) (offset : Nat) (text : Text) :
    maskBytesFrom mode offset (bytes text) =
      (maskFrom mode offset text).map fun cells => bytes (render cells) := by
  induction mode, offset, text using mask_induction with
  | done => rfl
  | stop offset hstop =>
    rw [hstop.maskFrom_eq]
    cases hstop with
    | comment | string => rfl
    | lineBreak start quote rest =>
      rw [Text.bytes_ascii_cons rfl, maskBytesFrom, if_pos (show '\n'.toUInt8 = 0x0A from rfl)]
      · rfl
      · rintro _ _ ⟨⟩
  | step hstep ih =>
    rw [hstep.maskBytesFrom_eq hmode, hstep.maskFrom_eq, ih (hstep.quoted hmode)]
    refine map_map_congr fun later => ?_
    rw [render_append, Text.bytes_append]

/-- The masked bytes of a sheet are those of its masked text, so they are always a text. -/
theorem maskBytesFrom_sheet (css : Text) :
    maskBytesFrom .sheet 0 (bytes css) = (maskedText css).map bytes := by
  rw [maskBytesFrom_bytes MaskMode.quoted_sheet]
  unfold maskedText mask
  cases maskFrom .sheet 0 css <;> rfl

theorem maskBytes_bytes (css : Text) : maskBytes (bytes css) = maskedText css := by
  unfold maskBytes
  rw [maskBytesFrom_sheet]
  cases maskedText css with
  | error fault => rfl
  | ok shown =>
    show (match Text.ofBytes? (bytes shown) with | some text => _ | none => _) = _
    rw [Text.ofBytes?_bytes]

end ClassAudit.Css
