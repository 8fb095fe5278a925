import Packrat.Action.Native

/-!
# What templates stand for

A template is read from its front, one character ahead. A doubled brace is a brace, a pair of
braces is a place for a value, and everything else stands for itself. Braces may come in runs, so
how one of them is read depends on where the reading has come to; but read from the front there is
one way only, and filling follows it.

* `Template.Reads`: what a template is read as.
* `Template.fill_of_reads`: filling puts the values into what was read.
* `Template.reads_written`: texts whose braces were doubled are read back, with a place between any
  two of them.
* `Native.template_fills`: what `template` gives, for written templates and for all others.
-/

namespace Packrat.Template

/-- What a template is made of. -/
inductive Piece
  /-- A character that stands in the result. -/
  | char (c : Char)
  /-- A place for a value. -/
  | place
deriving DecidableEq

/-- A brace, opening or closing. -/
abbrev IsBrace (c : Char) : Prop := c = '\x7b' ∨ c = '\x7d'

/-- Two characters that mean something together: a doubled brace, or a place. -/
def Paired (c d : Char) : Prop := (IsBrace c ∧ d = c) ∨ (c = '\x7b' ∧ d = '\x7d')

/-- **What a template is read as**, from its front. A character stands for itself only where it
means nothing together with the next. -/
inductive Reads : List Char → List Piece → Prop
  | nil : Reads [] []
  | brace {b : Char} {rest : List Char} {pieces : List Piece} (hb : IsBrace b)
      (h : Reads rest pieces) : Reads (b :: b :: rest) (.char b :: pieces)
  | place {rest : List Char} {pieces : List Piece} (h : Reads rest pieces) :
      Reads ('\x7b' :: '\x7d' :: rest) (.place :: pieces)
  | char {c : Char} {rest : List Char} {pieces : List Piece}
      (hc : ∀ d, rest.head? = some d → ¬ Paired c d) (h : Reads rest pieces) :
      Reads (c :: rest) (.char c :: pieces)

/-- How many values a template takes. -/
def places (pieces : List Piece) : Nat := pieces.count .place

/-- The pieces with values in their places, as long as there are enough. -/
def assemble : List Piece → List Value → Option (List Char)
  | [], _ => some []
  | .char c :: pieces, values => (assemble pieces values).map (c :: ·)
  | .place :: _, [] => none
  | .place :: pieces, v :: values => (assemble pieces values).map (v.display.toList ++ ·)

/-! ### Reading -/

/-- Every template can be read. -/
theorem exists_reads : ∀ form : List Char, ∃ pieces, Reads form pieces
  | [] => ⟨[], .nil⟩
  | [c] => ⟨[.char c], .char nofun .nil⟩
  | c :: d :: rest => by
    by_cases h : Paired c d
    · obtain ⟨pieces, hrest⟩ := exists_reads rest
      rcases h with ⟨hc, rfl⟩ | ⟨rfl, rfl⟩
      · exact ⟨_, .brace hc hrest⟩
      · exact ⟨_, .place hrest⟩
    · obtain ⟨pieces, hrest⟩ := exists_reads (d :: rest)
      refine ⟨_, .char (fun x hx => ?_) hrest⟩
      cases hx
      exact h

/-- **A template is read in one way only.** -/
theorem Reads.unique {form : List Char} {pieces other : List Piece} (h : Reads form pieces)
    (h' : Reads form other) : pieces = other := by
  induction h generalizing other with
  | nil => cases h'; rfl
  | @brace b rest pieces hb h ih =>
    cases h' with
    | brace _ h' => rw [ih h']
    | char hc _ => exact absurd (.inl ⟨hb, rfl⟩) (hc b rfl)
  | place h ih =>
    cases h' with
    | place h' => rw [ih h']
    | char hc _ => exact absurd (.inr ⟨rfl, rfl⟩) (hc _ rfl)
  | @char c rest pieces hc h ih =>
    cases h' with
    | brace hb _ => exact absurd (.inl ⟨hb, rfl⟩) (hc c rfl)
    | place _ => exact absurd (.inr ⟨rfl, rfl⟩) (hc _ rfl)
    | char _ h' => rw [ih h']

/-! ### Filling -/

/-- A character that means nothing together with the next is copied. -/
theorem fill_char {c : Char} {rest : List Char} (hc : ∀ d, rest.head? = some d → ¬ Paired c d)
    (values : List Value) : fill (c :: rest) values = (fill rest values).map (c :: ·) := by
  rw [fill]
  · rintro r rfl rfl
    exact hc _ rfl (.inl ⟨.inl rfl, rfl⟩)
  · rintro r rfl rfl
    exact hc _ rfl (.inl ⟨.inr rfl, rfl⟩)
  · rintro r _ rfl rfl
    exact hc _ rfl (.inr ⟨rfl, rfl⟩)
  · rintro r v vs _ rfl rfl
    exact hc _ rfl (.inr ⟨rfl, rfl⟩)

/-- **Filling puts the values into what was read.** -/
theorem fill_of_reads {form : List Char} {pieces : List Piece} (h : Reads form pieces)
    (values : List Value) : fill form values = assemble pieces values := by
  induction h generalizing values with
  | nil => simp [fill, assemble]
  | brace hb _ ih => rcases hb with rfl | rfl <;> rw [fill, ih, assemble]
  | place _ ih =>
    cases values with
    | nil => rw [fill, assemble]
    | cons v values => rw [fill, ih, assemble]
  | char hc _ ih => rw [fill_char hc, ih, assemble]

/-- The values run out if there are more places than values, and only then. -/
theorem assemble_eq_none_iff {pieces : List Piece} {values : List Value} :
    assemble pieces values = none ↔ values.length < places pieces := by
  induction pieces generalizing values with
  | nil => simp [assemble, places]
  | cons piece pieces ih =>
    unfold places at ih ⊢
    cases piece with
    | char c => simp [assemble, ih]
    | place =>
      cases values with
      | nil => simp [assemble]
      | cons v values => simp [assemble, ih]

/-! ### Written templates -/

/-- A text with every brace doubled. -/
def doubled (text : List Char) : List Char :=
  text.flatMap fun c => if IsBrace c then [c, c] else [c]

/-- **The template of texts** with a place in front of each but the first. -/
def written (first : List Char) (rest : List (List Char)) : List Char :=
  doubled first ++ rest.flatMap fun text => '\x7b' :: '\x7d' :: doubled text

/-- The texts with a value in front of each but the first. -/
def filled (first : List Char) (rest : List (List Char)) (values : List Value) : List Char :=
  first ++ (values.zip rest).flatMap fun (v, text) => v.display.toList ++ text

/-- What texts with a place in front of each but the first are made of. -/
def piecesOf (first : List Char) (rest : List (List Char)) : List Piece :=
  first.map .char ++ rest.flatMap fun text => .place :: text.map .char

/-- **A text with its braces doubled is read as itself**, whatever comes after it. -/
theorem Reads.text {form : List Char} {pieces : List Piece} (h : Reads form pieces) :
    ∀ text : List Char, Reads (doubled text ++ form) (text.map .char ++ pieces)
  | [] => h
  | c :: text => by
    have htext := Reads.text h text
    unfold doubled at htext ⊢
    rw [List.flatMap_cons, List.append_assoc, List.map_cons, List.cons_append]
    split
    next hc => exact .brace hc htext
    next hc =>
      -- no brace means anything together with what comes next
      refine .char (fun d _ hp => ?_) htext
      rcases hp with ⟨hb, -⟩ | ⟨rfl, -⟩
      · exact hc hb
      · exact hc (.inl rfl)

theorem reads_written (first : List Char) (rest : List (List Char)) :
    Reads (written first rest) (piecesOf first rest) := by
  refine Reads.text ?_ first
  induction rest with
  | nil => exact .nil
  | cons text rest ih => exact .place (Reads.text ih text)

-- the braces of both texts and those of the place stand in one run
example : written ['\x7b'] [['\x7d']] = "\x7b\x7b\x7b\x7d\x7d\x7d".toList := by decide

theorem places_piecesOf (first : List Char) (rest : List (List Char)) :
    places (piecesOf first rest) = rest.length := by
  have htext (text : List Char) : (text.map Piece.char).count .place = 0 :=
    List.count_eq_zero.2 (by simp)
  unfold places piecesOf
  rw [List.count_append, htext, Nat.zero_add]
  induction rest with
  | nil => rfl
  | cons text rest ih =>
    rw [List.flatMap_cons, List.cons_append, List.count_cons_self, List.count_append, htext, ih,
      List.length_cons, Nat.zero_add]

theorem assemble_text (text : List Char) (pieces : List Piece) (values : List Value) :
    assemble (text.map .char ++ pieces) values = (assemble pieces values).map (text ++ ·) := by
  induction text with
  | nil => simp
  | cons c text ih =>
    rw [List.map_cons, List.cons_append, assemble, ih, Option.map_map]
    rfl

/-- With a value for every place, the texts come back with the values between them. -/
theorem assemble_piecesOf (first : List Char) {rest : List (List Char)} {values : List Value}
    (h : rest.length ≤ values.length) :
    assemble (piecesOf first rest) values = some (filled first rest values) := by
  unfold piecesOf filled
  rw [assemble_text]
  induction rest generalizing values first with
  | nil => simp [assemble]
  | cons text rest ih =>
    cases values with
    | nil => simp at h
    | cons v values =>
      have hrest := ih text (Nat.le_of_succ_le_succ h)
      rw [List.flatMap_cons, List.cons_append, assemble, assemble_text, hrest]
      simp

end Template

namespace Native

open Template

/-- What `template` gives, by what the template is read as. -/
theorem template_of_reads {form : String} {pieces : List Piece} (h : Reads form.toList pieces)
    (values : List Value) :
    template (.string form :: values) =
      match assemble pieces values with
      | some text => .ok (.string (String.ofList text))
      | none => .error (.actionArity "template" "one argument per \x7b\x7d" values.length) := by
  unfold template
  simp only [asString, bind, Except.bind, fill_of_reads h]
  cases assemble pieces values <;> rfl

/-- **Templates are filled faithfully.** Texts whose braces were doubled come back as they were,
with the shown forms of the values between them, if there is a value for every place. Every template
is read in exactly one way, and asks for more arguments if that takes more values than there are,
and gives a string otherwise. -/
theorem template_fills :
    (∀ (first : List Char) (rest : List (List Char)) (values : List Value),
      template (.string (String.ofList (written first rest)) :: values) =
        if rest.length ≤ values.length then .ok (.string (String.ofList (filled first rest values)))
        else .error (.actionArity "template" "one argument per \x7b\x7d" values.length)) ∧
    ∀ (form : String) (values : List Value), ∃ pieces,
      (∀ other, Reads form.toList other ↔ other = pieces) ∧
      ((∃ text, template (.string form :: values) = .ok (.string text)) ↔
        places pieces ≤ values.length) ∧
      (template (.string form :: values) =
          .error (.actionArity "template" "one argument per \x7b\x7d" values.length) ↔
        values.length < places pieces) := by
  refine ⟨fun first rest values => ?_, fun form values => ?_⟩
  · have hreads : Reads (String.ofList (written first rest)).toList (piecesOf first rest) := by
      rw [String.toList_ofList]
      exact reads_written first rest
    rw [template_of_reads hreads]
    by_cases h : rest.length ≤ values.length
    · rw [assemble_piecesOf first h, if_pos h]
    · have hnone : assemble (piecesOf first rest) values = none := by
        rw [assemble_eq_none_iff, places_piecesOf]
        omega
      rw [hnone, if_neg h]
  · obtain ⟨pieces, hreads⟩ := exists_reads form.toList
    refine ⟨pieces, fun other => ⟨fun h => h.unique hreads, fun h => h ▸ hreads⟩, ?_, ?_⟩
    · rw [template_of_reads hreads, ← Nat.not_lt, ← assemble_eq_none_iff]
      cases assemble pieces values <;> simp
    · rw [template_of_reads hreads, ← assemble_eq_none_iff]
      cases assemble pieces values <;> simp

end Native

end Packrat
