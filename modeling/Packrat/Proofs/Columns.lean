import Mathlib.Algebra.Group.Nat.Defs
import Packrat.Proofs.Pointing

/-!
# Columns

The column of a position is found twice. The built-in rule `col` goes back from the position to the
newline before it and counts from 0; a report counts lines and columns on from the start of the
text, both from 1. A tree may hold what the first of them gave and be compared with what the second
says, so they have to agree at every position: at the start, behind a newline and at the end of the
text.

A tree holds numbers, and a count becomes the number nearest to it. Up to `2 ^ 53` that is the count
itself, because its bits fit into the significand.

* `Number.toInt?_ofNat`: a count that fits is not rounded.
* `Input.lineCol?_text`: the column of a report in terms of the column that `col` finds.
* `Builtin.Records`: what a built-in rule records of a position.
* `Engine.columns_agree`: what is recorded of a position is what a report about it says.
-/

namespace Packrat

/-! ### Counts as numbers -/

namespace Number

variable {n : Nat}

theorem infinityBits_lt : infinityBits < 2 ^ 63 := by decide

theorem toNat_signBit : signBit.toNat = 2 ^ 63 := by decide

/-- A number without a sign is put together from its bits, up to those of infinity, unchanged. -/
theorem toNat_bits_ofParts (h : n ≤ infinityBits) : (ofParts false n).bits.toNat = n := by
  have := infinityBits_lt
  have hfits : n < UInt64.size := by
    unfold UInt64.size
    omega
  have hbits : (ofParts false n).bits = UInt64.ofNat n := UInt64.zero_add _
  rw [hbits, UInt64.toNat_ofNat_of_lt' hfits]

theorem magnitude_ofParts (h : n ≤ infinityBits) : (ofParts false n).magnitude = n := by
  have := infinityBits_lt
  rw [magnitude, UInt64.toNat_mod, toNat_bits_ofParts h, toNat_signBit]
  omega

theorem negative_ofParts (h : n ≤ infinityBits) : (ofParts false n).negative = false := by
  have := infinityBits_lt
  rw [negative, decide_eq_false_iff_not, UInt64.le_iff_toNat_le, toNat_bits_ofParts h,
    toNat_signBit]
  omega

/-- The significand of a whole number: it is shifted until its leading bit is in place. -/
def shifted (n : Nat) : Nat := n * 2 ^ (52 - n.log2)

/-- The bits of a whole number below `2 ^ 53`. The significand adds its leading bit to the bits of
the exponent, so these are one less than the exponent says. -/
def wholeBits (n : Nat) : Nat := (n.log2 + 1022) * leadingBit + shifted n

theorem log2_le (hpos : 0 < n) (h : n < 2 ^ 53) : n.log2 ≤ 52 := by
  have : n.log2 < 53 := (Nat.log2_lt (by omega)).2 h
  omega

/-- The exponent of such a number is not positive, and takes back the shift. -/
theorem toNat_exponent (hlog : n.log2 ≤ 52) :
    ((n.log2 : Int) - 52).toNat = 0 ∧ (-((n.log2 : Int) - 52)).toNat = 52 - n.log2 := by
  omega

/-- **A whole number below `2 ^ 53` fits into a significand.** -/
theorem shifted_bounds (hpos : 0 < n) (h : n < 2 ^ 53) :
    leadingBit ≤ shifted n ∧ shifted n < 2 * leadingBit := by
  have hlog := log2_le hpos h
  have hlow : 2 ^ n.log2 ≤ n := Nat.log2_self_le (by omega)
  have hhigh : n < 2 ^ (n.log2 + 1) := Nat.lt_log2_self
  have hunit : leadingBit = 2 ^ n.log2 * 2 ^ (52 - n.log2) := by
    rw [← Nat.pow_add, Nat.add_sub_cancel' hlog]
    rfl
  have hshift : 0 < 2 ^ (52 - n.log2) := Nat.two_pow_pos _
  unfold shifted
  constructor
  · rw [hunit]
    exact Nat.mul_le_mul_right _ hlow
  · rw [hunit, ← Nat.mul_assoc, Nat.mul_comm 2, ← Nat.pow_succ]
    exact Nat.mul_lt_mul_of_pos_right hhigh hshift

theorem wholeBits_lt (hpos : 0 < n) (h : n < 2 ^ 53) : wholeBits n < infinityBits := by
  have hlog := log2_le hpos h
  obtain ⟨-, hhigh⟩ := shifted_bounds hpos h
  unfold wholeBits infinityBits
  unfold leadingBit at hhigh ⊢
  omega

/-- A whole number below `2 ^ 53` is nearest to itself. -/
theorem nearest_whole (hpos : 0 < n) (h : n < 2 ^ 53) : nearest n 1 = wholeBits n := by
  have hne : n ≠ 0 := by omega
  have hlog := log2_le hpos h
  obtain ⟨hlow, -⟩ := shifted_bounds hpos h
  -- the first exponent leaves 54 bits before the point
  have hrough : max ((n.log2 : Int) - (Nat.log2 1 : Nat) - 53) (-1074) = (n.log2 : Int) - 53 := by
    have : Nat.log2 1 = 0 := by decide
    omega
  have hup : ((n.log2 : Int) - 53).toNat = 0 := by omega
  have hdown : (-((n.log2 : Int) - 53)).toNat = 52 - n.log2 + 1 := by omega
  have hlong : 1 * Nat.pow 2 0 * (2 * leadingBit) ≤ n * Nat.pow 2 (52 - n.log2 + 1) := by
    have hdouble : n * 2 ^ (52 - n.log2 + 1) = 2 * shifted n := by
      rw [shifted, Nat.pow_succ, ← Nat.mul_assoc, Nat.mul_comm]
    show 1 * 2 ^ 0 * (2 * leadingBit) ≤ n * 2 ^ (52 - n.log2 + 1)
    omega
  -- so it goes one step up, and then nothing is left behind the point
  have hstep : (n.log2 : Int) - 53 + 1 = (n.log2 : Int) - 52 := by omega
  obtain ⟨hup', hdown'⟩ := toNat_exponent hlog
  have hbias : ((n.log2 : Int) - 52 + 1074).toNat = n.log2 + 1022 := by omega
  have hwhole (m : Nat) : roundHalfEven m (1 * Nat.pow 2 0) = m := by
    simp [roundHalfEven, Nat.mod_one]
  unfold nearest
  simp only [if_neg hne, hrough, hup, hdown, if_pos hlong, hstep, hup', hdown', hbias, hwhole]
  exact Nat.min_eq_left (Nat.le_of_lt (wholeBits_lt hpos h))

theorem magnitude_wholeBits (hpos : 0 < n) (h : n < 2 ^ 53) :
    (ofParts false (wholeBits n)).magnitude = wholeBits n :=
  magnitude_ofParts (Nat.le_of_lt (wholeBits_lt hpos h))

theorem significand_wholeBits (hpos : 0 < n) (h : n < 2 ^ 53) :
    (ofParts false (wholeBits n)).significand = shifted n := by
  obtain ⟨hlow, hhigh⟩ := shifted_bounds hpos h
  rw [significand, magnitude_wholeBits hpos h]
  unfold wholeBits
  unfold leadingBit at *
  split <;> omega

theorem exponent_wholeBits (hpos : 0 < n) (h : n < 2 ^ 53) :
    (ofParts false (wholeBits n)).exponent = (n.log2 : Int) - 52 := by
  obtain ⟨hlow, hhigh⟩ := shifted_bounds hpos h
  rw [exponent, magnitude_wholeBits hpos h]
  unfold wholeBits
  unfold leadingBit at *
  split <;> omega

/-- The exponent takes the significand back by as much as the number was shifted. -/
theorem toInt?_wholeBits (hpos : 0 < n) (h : n < 2 ^ 53) :
    (ofParts false (wholeBits n)).toInt? = some (n : Int) := by
  have hfinite := wholeBits_lt hpos h
  have hsign := negative_ofParts (Nat.le_of_lt hfinite)
  have hunit : 0 < 2 ^ (52 - n.log2) := Nat.two_pow_pos _
  obtain ⟨hup, hdown⟩ := toNat_exponent (log2_le hpos h)
  unfold toInt?
  rw [isFinite, magnitude_wholeBits hpos h, significand_wholeBits hpos h,
    exponent_wholeBits hpos h, hup, hdown, hsign, shifted]
  simp [hfinite, Nat.mul_div_cancel _ hunit]

/-- **A count up to `2 ^ 53` is not rounded.** -/
theorem toInt?_ofNat (h : n ≤ 2 ^ 53) : (ofNat n).toInt? = some (n : Int) := by
  rcases Nat.eq_zero_or_pos n with rfl | hpos
  · decide +kernel
  rcases Nat.lt_or_eq_of_le h with hlt | rfl
  · unfold ofNat ofRatio
    rw [nearest_whole hpos hlt, toInt?_wholeBits hpos hlt]
  -- the first number with 54 bits is a power of two
  · decide +kernel

end Number

/-! ### Columns in both directions -/

namespace Input

variable {chars : Array Char} {pos : Nat}

/-- **Going back to the newline**: the column is the number of characters behind the last newline
before the position, or behind the start of the text. -/
theorem columnBefore_eq (h : pos ≤ chars.size) :
    columnBefore chars pos =
      ((chars.toList.take pos).reverse.takeWhile (· ≠ '\n')).length := by
  induction pos with
  | zero => rfl
  | succ pos ih =>
    have hlt : pos < chars.toList.length := by
      rw [Array.length_toList]
      omega
    have hchar : chars[pos]? = some chars.toList[pos] := by
      rw [← Array.getElem?_toList, List.getElem?_eq_getElem hlt]
    have hback : (chars.toList.take (pos + 1)).reverse =
        chars.toList[pos] :: (chars.toList.take pos).reverse := by
      rw [List.take_add_one, List.getElem?_eq_getElem hlt, Option.toList_some,
        List.reverse_append, List.reverse_singleton, List.singleton_append]
    rw [columnBefore, hchar, hback]
    by_cases hc : chars.toList[pos] = '\n'
    · rw [if_pos (congrArg some hc), List.takeWhile_cons_of_neg (by simpa using hc),
        List.length_nil]
    · have hne : some chars.toList[pos] ≠ some '\n' := fun he => hc (Option.some.inj he)
      rw [if_neg hne, List.takeWhile_cons_of_pos (by simpa using hc), List.length_cons,
        ih (by omega)]

/-- **Counting on from the start** gives the same column, counted from 1. -/
theorem lineCol?_text (h : pos ≤ chars.size) :
    (text chars).lineCol? pos =
      some (1 + (chars.toList.take pos).count '\n', columnBefore chars pos + 1) := by
  rw [lineCol?, Text.lineCol_eq, ← columnBefore_eq h, Nat.add_comm 1 (columnBefore chars pos)]

end Input

/-- **What a built-in rule records of a position**: applied there, in whatever run, it consumes
nothing and gives the number nearest to a count; if the count fits, that is the count itself. -/
structure Builtin.Records (b : Builtin) (input : Input) (pos count : Nat) : Prop where
  gives : ∀ (φ : Type) [Account φ] (apply : Applier φ) (frame : Frame) (dispatch : Grammar)
    (st : State φ), frame.input = input → st.pos = pos →
      applyTarget apply frame dispatch (.builtin b) [] st =
        .ok (st.accept pos (.number (.ofNat count)))
  exact : count ≤ 2 ^ 53 → (Number.ofNat count).toInt? = some (count : Int)

namespace Builtin

theorem pos_records (input : Input) (pos : Nat) : Builtin.pos.Records input pos pos where
  gives φ _ apply frame dispatch st _ hpos := by
    rw [← hpos]
    rfl
  exact h := Number.toInt?_ofNat h

theorem col_records (chars : Array Char) (pos : Nat) :
    Builtin.col.Records (.text chars) pos (Input.columnBefore chars pos) where
  gives φ _ apply frame dispatch st hinput hpos := by
    obtain ⟨input, path, tags⟩ := frame
    obtain rfl : input = .text chars := hinput
    rw [← hpos]
    rfl
  exact h := Number.toInt?_ofNat h

end Builtin

/-- A report about a position of some contents, inside of the root input. -/
def Failure.IsAt (f : Failure) (root contents : Input) (pos : Nat) : Prop :=
  ∃ path tags, f.location = path ++ [pos] ∧ root.follow? path = some (contents, tags)

/-- A report that points into the root has the line of the position that it is about. -/
theorem Failure.PointsInto.of_isAt {f : Failure} {root contents : Input} {pos : Nat}
    (h : f.PointsInto root) (hat : f.IsAt root contents pos) :
    f.position = pos ∧ f.line = contents.lineCol? pos := by
  obtain ⟨path, p, inner, hl, hp, -, hline, -⟩ := h
  obtain ⟨path', tags, hl', hp'⟩ := hat
  -- a location is taken apart in one way, and a path leads to one place
  have hsame : path = path' ∧ [p] = [pos] := List.append_inj' (hl.symm.trans hl') rfl
  obtain ⟨rfl, hlast⟩ := hsame
  obtain rfl : p = pos := List.head_eq_of_cons_eq hlast
  have hinner : inner = contents := by
    rw [hp] at hp'
    exact congrArg Prod.fst (Option.some.inj hp')
  refine ⟨?_, by rw [hline, hinner]⟩
  rw [Failure.position, hl, List.getLast?_concat, Option.getD_some]

namespace Engine

/-- **Columns agree.** At every position of a text, its end included, the column that `col` records,
counted from 0, is one less than the column counted on from the start, and the line is one more than
the number of newlines before. So of one position, what `pos` and `col` record is what every report
about it says, in whatever input the text is and whatever the run. -/
theorem columns_agree (chars : Array Char) {pos : Nat} (h : pos ≤ chars.size) :
    ∃ line col, (Input.text chars).lineCol? pos = some (line, col + 1) ∧
      line = 1 + (chars.toList.take pos).count '\n' ∧
      col = ((chars.toList.take pos).reverse.takeWhile (· ≠ '\n')).length ∧
      Builtin.col.Records (.text chars) pos col ∧ Builtin.pos.Records (.text chars) pos pos ∧
      ∀ (e : Engine) (g : Grammar) (rule : String) (root : Input) (args : List Value)
        (toEnd : Bool) (f : Failure), e.run g rule root args toEnd = .ok (.failure f) →
          f.IsAt root (.text chars) pos → f.position = pos ∧ f.line = some (line, col + 1) := by
  have hline := Input.lineCol?_text h
  refine ⟨_, _, hline, rfl, Input.columnBefore_eq h, Builtin.col_records chars pos,
    Builtin.pos_records (.text chars) pos, ?_⟩
  intro e g rule root args toEnd f hrun hat
  obtain ⟨hpos, hf⟩ := (run_pointsInto hrun).of_isAt hat
  exact ⟨hpos, hf.trans hline⟩

/-- Rules for words that note where they stand, `name = spaces pos:p col:c <letter+>:n ->
@Name(n, p, c)`, with `start = [name+]` and `numbered = [name spaces digit]`. -/
def places : Draft :=
  { name := "Places"
    rules := [
      { name := "start", body := .nested (.many1 (.app "name")) },
      { name := "numbered"
        body := .nested (.sequence [.app "name", .app "spaces", .app "digit"]) },
      { name := "name"
        body := .sequence [.app "spaces", .bind "p" (.app "pos"), .bind "c" (.app "col"),
          .bind "n" (.capture (.many1 (.app "letter"))),
          .action (.node "Name" [.var "n", .var "p", .var "c"])] }] }

/-- A text whose second word stands behind two blanks on the second line. -/
def placesText : String := "ab\n  cd"

/-- The words of `placesText`. -/
def placesTree : Value :=
  .list [.node "Name" [.string "ab", .number (.ofNat 0), .number (.ofNat 0)],
    .node "Name" [.string "cd", .number (.ofNat 5), .number (.ofNat 2)]]

/-- The report about `placesText` that a digit is missing in place of its second word. -/
def placesReport : Failure :=
  { location := [0, 5], line := some (2, 3), expected := .singleton "digit", found := "cd" }

/-- The second word of a text that is an item, in a tree and in a report. -/
theorem columns_agree_places :
    5 ≤ placesText.toList.toArray.size ∧
      (({} : Engine).run places.freeze "start" (.ofList [.string placesText]) [] true =
        .ok (.success placesTree { input := .ofList [.string placesText], pos := 1 })) ∧
      (({} : Engine).run places.freeze "numbered" (.ofList [.string placesText]) [] true =
        .ok (.failure placesReport)) ∧
      placesReport.IsAt (.ofList [.string placesText]) (.ofString placesText) 5 ∧
      Builtin.pos.Records (.ofString placesText) 5 5 ∧
      Builtin.col.Records (.ofString placesText) 5 2 ∧
      (Input.ofString placesText).lineCol? 5 = some (2, 3) ∧
      placesReport.position = 5 ∧ placesReport.line = some (2, 3) := by
  have hsize : 5 ≤ placesText.toList.toArray.size := by decide +kernel
  have htree : ({} : Engine).run places.freeze "start" (.ofList [.string placesText]) [] true =
      .ok (.success placesTree { input := .ofList [.string placesText], pos := 1 }) := by
    decide +kernel
  have hreport : ({} : Engine).run places.freeze "numbered" (.ofList [.string placesText]) [] true =
      .ok (.failure placesReport) := by decide +kernel
  have hat : placesReport.IsAt (.ofList [.string placesText]) (.ofString placesText) 5 :=
    ⟨[0], [], rfl, by decide +kernel⟩
  obtain ⟨line, col, hcount, hline, hcol, hrecords, hpos, hreports⟩ :=
    columns_agree placesText.toList.toArray hsize
  have hline2 : line = 2 := by
    rw [hline]
    decide +kernel
  have hcol2 : col = 2 := by
    rw [hcol]
    decide +kernel
  rw [hcol2] at hrecords
  rw [hline2, hcol2] at hcount
  obtain ⟨hposition, hplace⟩ :=
    hreports {} places.freeze "numbered" _ [] true placesReport hreport hat
  rw [hline2, hcol2] at hplace
  exact ⟨hsize, htree, hreport, hat, hpos, hrecords, hcount, hposition, hplace⟩

end Engine

end Packrat
