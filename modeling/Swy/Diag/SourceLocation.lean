import Mathlib.Data.List.Basic
import Mathlib.Data.List.TakeWhile

/-!
# Source locations

`SourceLocation::fromSource` finds the byte of a token from the line and the column of the lexer.
The lexer counts code points in a line and `fromSource` counts bytes, so a token is found where it
is if the characters before it in its line have one byte each.

The text is a list of characters, the buffer is the list of its bytes in UTF-8.
-/

namespace Swy

/-- `SourceLocation`: the offset into the buffer. -/
structure SourceLocation where
  offset : Nat
deriving DecidableEq, Repr

/-- `SourceRange`. -/
structure SourceRange where
  start : SourceLocation
  last : SourceLocation
deriving DecidableEq, Repr

namespace SourceLocation

/-- `extend`. -/
def extend (location : SourceLocation) (extension : Nat) : SourceRange :=
  ⟨location, ⟨location.offset + extension⟩⟩

/-- The byte of a line feed. -/
def lineFeed : UInt8 := 10

/-- The first loop of `fromSource`: the offset and what follows it. -/
def extendToLine : Nat → Nat → List UInt8 → Nat × List UInt8
  | _, current, [] => (current, [])
  | line, current, byte :: buffer =>
    if line ≠ 1 then extendToLine (if byte = lineFeed then line - 1 else line) (current + 1) buffer
    else (current, byte :: buffer)

/-- The second loop of `fromSource`. -/
def extendToOffset : Nat → Nat → List UInt8 → Nat
  | _, current, [] => current
  | charPositionInLine, current, _ :: buffer =>
    if charPositionInLine = 0 then current
    else extendToOffset (charPositionInLine - 1) (current + 1) buffer

/-- `fromSource`. -/
def fromSource (buffer : List UInt8) (line charPositionInLine : Nat) : SourceLocation :=
  let (current, rest) := extendToLine line 0 buffer
  ⟨extendToOffset charPositionInLine current rest⟩

end SourceLocation

/-- The bytes of a text. -/
def utf8 (text : List Char) : List UInt8 := text.flatMap String.utf8EncodeChar

/-- What the lexer knows about a token: its text and its position. -/
structure TokenPosition where
  text : List Char
  line : Nat
  charPositionInLine : Nat

/-- `sourceLocationOf` a token. -/
def sourceLocationOf (buffer : List UInt8) (token : TokenPosition) : SourceLocation :=
  .fromSource buffer token.line token.charPositionInLine

/-- `sourceRangeOf` a token. -/
def sourceRangeOf (buffer : List UInt8) (token : TokenPosition) : SourceRange :=
  (sourceLocationOf buffer token).extend (utf8 token.text).length

/-! ## The position of the lexer -/

/-- The line behind a text. -/
def lineOf (before : List Char) : Nat := 1 + before.count '\n'

/-- The last line of a text. -/
def lastLine (before : List Char) : List Char :=
  (before.reverse.takeWhile fun c => c != '\n').reverse

/-- The column behind a text, in code points. -/
def columnOf (before : List Char) : Nat := (lastLine before).length

/-- The position the lexer gives to a token behind a text. -/
def positionOf (before token : List Char) : TokenPosition :=
  ⟨token, lineOf before, columnOf before⟩

/-- The lines in front of the last one. -/
def firstLines (before : List Char) : List Char :=
  (before.reverse.dropWhile fun c => c != '\n').reverse

theorem firstLines_append_lastLine (before : List Char) :
    firstLines before ++ lastLine before = before := by
  rw [firstLines, lastLine, ← List.reverse_append, List.takeWhile_append_dropWhile,
    List.reverse_reverse]

theorem not_mem_lastLine (before : List Char) : '\n' ∉ lastLine before := by
  intro hmem
  have hc := List.mem_takeWhile_imp (List.mem_reverse.1 hmem)
  exact absurd hc (by decide)

/-- The lines end with a line feed. -/
theorem getLast?_firstLines (before : List Char) :
    ∀ c ∈ (firstLines before).getLast?, c = '\n' := by
  intro c hc
  rw [firstLines, List.getLast?_reverse] at hc
  have hnot := List.head?_dropWhile_not (fun c => c != '\n') before.reverse
  rw [show (before.reverse.dropWhile fun c => c != '\n').head? = some c from hc] at hnot
  simpa using hnot

theorem lineOf_eq (before : List Char) : lineOf before = 1 + (firstLines before).count '\n' := by
  rw [lineOf]
  conv_lhs => rw [← firstLines_append_lastLine before]
  rw [List.count_append, List.count_eq_zero_of_not_mem (not_mem_lastLine before), Nat.add_zero]

/-! ## Bytes -/

theorem utf8_append (cs ds : List Char) : utf8 (cs ++ ds) = utf8 cs ++ utf8 ds :=
  List.flatMap_append

theorem utf8_cons (c : Char) (cs : List Char) :
    utf8 (c :: cs) = String.utf8EncodeChar c ++ utf8 cs := rfl

/-- A line feed byte belongs to a line feed. -/
theorem lineFeed_not_mem {c : Char} (h : c ≠ '\n') :
    SourceLocation.lineFeed ∉ String.utf8EncodeChar c := by
  have hofNat : ∀ n : Nat, SourceLocation.lineFeed = UInt8.ofNat n → n % 256 = 10 := by
    intro n hn
    have htoNat := congrArg UInt8.toNat hn
    rw [UInt8.toNat_ofNat'] at htoNat
    exact htoNat.symm
  have hval : c.val.toNat ≠ 10 := by
    intro hc
    exact h (Char.ext (UInt32.toNat_inj.1 hc))
  intro hmem
  unfold String.utf8EncodeChar at hmem
  dsimp only at hmem
  split at hmem
  · have hn := hofNat _ (List.mem_singleton.1 hmem)
    omega
  · split at hmem
    · simp only [List.mem_cons, List.not_mem_nil, or_false] at hmem
      rcases hmem with hmem | hmem <;> have hn := hofNat _ hmem <;> omega
    · split at hmem
      · simp only [List.mem_cons, List.not_mem_nil, or_false] at hmem
        rcases hmem with hmem | hmem | hmem <;> have hn := hofNat _ hmem <;> omega
      · simp only [List.mem_cons, List.not_mem_nil, or_false] at hmem
        rcases hmem with hmem | hmem | hmem | hmem <;> have hn := hofNat _ hmem <;> omega

theorem length_le_utf8 (cs : List Char) : cs.length ≤ (utf8 cs).length := by
  induction cs with
  | nil => exact Nat.le_refl _
  | cons c cs ih =>
    rw [utf8_cons, List.length_append, String.length_utf8EncodeChar, List.length_cons]
    have hpos := c.utf8Size_pos
    omega

/-- Code points and bytes are as many if every code point has one byte. -/
theorem length_utf8_eq_iff (cs : List Char) :
    (utf8 cs).length = cs.length ↔ ∀ c ∈ cs, c.utf8Size = 1 := by
  induction cs with
  | nil => simp [utf8]
  | cons c cs ih =>
    rw [utf8_cons, List.length_append, String.length_utf8EncodeChar, List.length_cons,
      List.forall_mem_cons, ← ih]
    have hpos := c.utf8Size_pos
    have hle := length_le_utf8 cs
    omega

/-! ## The loops -/

namespace SourceLocation

/-- Bytes that are no line feeds do not change the line. -/
theorem extendToLine_append {line : Nat} (hline : line ≠ 1) {bytes : List UInt8}
    (hbytes : lineFeed ∉ bytes) (current : Nat) (rest : List UInt8) :
    extendToLine line current (bytes ++ rest) =
      extendToLine line (current + bytes.length) rest := by
  induction bytes generalizing current with
  | nil => rfl
  | cons byte bytes ih =>
    rw [List.mem_cons, not_or] at hbytes
    rw [List.cons_append, extendToLine, if_pos hline, if_neg (Ne.symm hbytes.1), ih hbytes.2,
      List.length_cons, Nat.add_assoc, Nat.add_comm 1]

theorem extendToLine_one (current : Nat) (rest : List UInt8) :
    extendToLine 1 current rest = (current, rest) := by
  cases rest <;> rfl

/-- The first loop goes over the lines in front of the line it looks for. The induction is on their
characters: the last one is a line feed, so the line is not reached before. -/
theorem extendToLine_utf8 (rest : List UInt8) (lines : List Char)
    (hlines : ∀ c ∈ lines.getLast?, c = '\n') (current : Nat) :
    extendToLine (1 + lines.count '\n') current (utf8 lines ++ rest) =
      (current + (utf8 lines).length, rest) := by
  induction lines generalizing current with
  | nil => exact extendToLine_one current rest
  | cons c lines ih =>
    have hrest : ∀ d ∈ lines.getLast?, d = '\n' := by
      intro d hd
      cases lines with
      | nil => cases hd
      | cons e lines => exact hlines d (by rw [List.getLast?_cons_cons]; exact hd)
    have hcount : 0 < (c :: lines).count '\n' := by
      rw [List.count_pos_iff]
      have hlast := List.getLast?_eq_some_getLast (List.cons_ne_nil c lines)
      rw [← hlines _ hlast]
      exact List.getLast_mem _
    rw [utf8_cons, List.append_assoc, List.length_append]
    by_cases hc : c = '\n'
    · subst hc
      rw [List.count_cons_self]
      change extendToLine (1 + (lines.count '\n' + 1)) current
        (lineFeed :: (utf8 lines ++ rest)) = _
      rw [extendToLine, if_pos (by omega), if_pos rfl]
      have hprevious : 1 + (lines.count '\n' + 1) - 1 = 1 + lines.count '\n' := by omega
      rw [hprevious, ih hrest, Nat.add_assoc]
      rfl
    · rw [List.count_cons_of_ne hc] at hcount ⊢
      rw [extendToLine_append (by omega) (lineFeed_not_mem hc), ih hrest, Nat.add_assoc]

/-- The second loop goes on by the column as far as there are bytes. -/
theorem extendToOffset_eq (charPositionInLine current : Nat) (rest : List UInt8) :
    extendToOffset charPositionInLine current rest =
      current + min charPositionInLine rest.length := by
  induction rest generalizing charPositionInLine current with
  | nil => rw [extendToOffset, List.length_nil, Nat.min_zero, Nat.add_zero]
  | cons byte rest ih =>
    rw [extendToOffset]
    by_cases hzero : charPositionInLine = 0
    · rw [if_pos hzero, hzero, Nat.zero_min, Nat.add_zero]
    · rw [if_neg hzero, ih, List.length_cons]
      omega

/-- The location is as many bytes behind the start of the line as the line has code points. -/
theorem fromSource_eq (before rest : List Char) :
    fromSource (utf8 (before ++ rest)) (lineOf before) (columnOf before) =
      ⟨(utf8 (firstLines before)).length + columnOf before⟩ := by
  have hloop := extendToLine_utf8 (utf8 (lastLine before) ++ utf8 rest) (firstLines before)
    (getLast?_firstLines before) 0
  rw [← lineOf_eq, ← List.append_assoc, ← utf8_append, firstLines_append_lastLine,
    ← utf8_append] at hloop
  have hle := length_le_utf8 (lastLine before)
  unfold fromSource
  rw [hloop]
  dsimp only
  rw [extendToOffset_eq, List.length_append, columnOf, Nat.zero_add, Nat.min_eq_left (by omega)]

end SourceLocation

/-- A token behind `before` is found at its byte, and its range is its bytes, if and only if the
characters before it in its line have one byte each. -/
theorem sourceRangeOf_iff (before token after : List Char) :
    (sourceLocationOf (utf8 (before ++ token ++ after)) (positionOf before token) =
        ⟨(utf8 before).length⟩ ∧
      sourceRangeOf (utf8 (before ++ token ++ after)) (positionOf before token) =
        ⟨⟨(utf8 before).length⟩, ⟨(utf8 before).length + (utf8 token).length⟩⟩) ↔
      ∀ c ∈ lastLine before, c.utf8Size = 1 := by
  have hlocation := SourceLocation.fromSource_eq before (token ++ after)
  rw [← List.append_assoc] at hlocation
  have hbefore : (utf8 before).length =
      (utf8 (firstLines before)).length + (utf8 (lastLine before)).length := by
    conv_lhs => rw [← firstLines_append_lastLine before]
    rw [utf8_append, List.length_append]
  have hsource : sourceLocationOf (utf8 (before ++ token ++ after)) (positionOf before token) =
      ⟨(utf8 (firstLines before)).length + (lastLine before).length⟩ := hlocation
  rw [sourceRangeOf, hsource, hbefore, ← length_utf8_eq_iff]
  constructor
  · rintro ⟨hoffset, -⟩
    have heq := congrArg SourceLocation.offset hoffset
    dsimp only at heq
    omega
  · intro hlength
    rw [hlength]
    exact ⟨rfl, rfl⟩

/-- The name behind a comment with an umlaut is found one byte too early. -/
theorem sourceRangeOf_umlaut : ¬ ∀ before token after : List Char,
    sourceLocationOf (utf8 (before ++ token ++ after)) (positionOf before token) =
        ⟨(utf8 before).length⟩ ∧
      sourceRangeOf (utf8 (before ++ token ++ after)) (positionOf before token) =
        ⟨⟨(utf8 before).length⟩, ⟨(utf8 before).length + (utf8 token).length⟩⟩ := by
  intro h
  have hname := (h "/* ä */".toList "x".toList []).1
  exact absurd hname (by decide)

end Swy
