import Packrat.Library.Basic
import Packrat.Proofs.Failing
import Packrat.Proofs.Kinds
import Packrat.Proofs.Places
import Packrat.Proofs.Safety

/-!
# Where descriptions go wrong

An error about a description points at a character of it, in three ways: by its position, by its
bytes, and by line and column. The position comes out of the match, and the other two are counted
from it, each in a loop of its own. Here they are shown to be about the same character.

No other error gets in between. A match with standard functions ends early only with a cause that
carries no report, and reading a tree fails only because the tree is malformed.

* `Text.Span.Marks`: the bytes of a character, or nothing at the end of the text.
* `Text.charSpan_marks`: these are the ones that `Text.charSpan` gives.
* `Text.lineCol_eq`: what line and column count.
* `Engine.run_reportless`: how a match ends early with standard functions.
* `Library.parse_points`: where an error about a description points.
-/

namespace Packrat

/-! ### Bytes, lines and columns -/

namespace Text

/-- **The bytes of the character at a position**: those before it are the characters before it, and
both ends are between characters. At the end of the text there are none. -/
structure Span.Marks (text : String) (pos : Nat) (s : Span) : Prop where
  before : text.toByteArray.extract 0 s.offset = (text.toList.take pos).utf8Encode
  inside : text.toByteArray.extract s.offset (s.offset + s.length) =
    text.toList[pos]?.toList.utf8Encode
  starts : String.Pos.Raw.IsValid text ⟨s.offset⟩
  stops : String.Pos.Raw.IsValid text ⟨s.offset + s.length⟩
  atEnd : pos = text.length → s = ⟨text.utf8ByteSize, 0⟩

theorem byteSize_eq (cs : List Char) : byteSize cs = cs.utf8Encode.size := by
  have hfold (n : Nat) :
      cs.foldl (fun size c => size + c.utf8Size) n = n + cs.utf8Encode.size := by
    induction cs generalizing n with
    | nil => simp
    | cons c cs ih =>
      rw [List.foldl_cons, ih, List.utf8Encode_cons, ByteArray.size_append,
        List.utf8Encode_singleton]
      simp [Nat.add_assoc]
  rw [byteSize, hfold, Nat.zero_add]

/-- The bytes of a part of a text are where the bytes before it end. -/
theorem extract_part {text : String} {before part after : List Char}
    (h : text.toList = before ++ part ++ after) :
    text.toByteArray.extract (byteSize before) (byteSize before + byteSize part) =
      part.utf8Encode := by
  rw [← String.utf8Encode_toList, h, List.append_assoc, List.utf8Encode_append, byteSize_eq,
    byteSize_eq]
  have hshift := ByteArray.extract_append_size_add (a := before.utf8Encode)
    (b := (part ++ after).utf8Encode) (i := 0) (j := part.utf8Encode.size)
  rw [Nat.add_zero] at hshift
  rw [hshift, List.utf8Encode_append, ByteArray.extract_append_eq_left rfl]

/-- Behind a part of a text that begins it, there is a boundary. -/
theorem isValid_byteSize {text : String} {before after : List Char}
    (h : text.toList = before ++ after) : String.Pos.Raw.IsValid text ⟨byteSize before⟩ := by
  refine String.Pos.Raw.isValid_iff_exists_append.2
    ⟨String.ofList before, String.ofList after, ?_, ?_⟩
  · rw [← String.ofList_append, ← h, String.ofList_toList]
  · rw [byteSize_eq, ← String.toByteArray_ofList, String.size_toByteArray]
    rfl

/-- **The span of a character holds its bytes.** -/
theorem charSpan_marks (text : String) (pos : Nat) : (charSpan text pos).Marks text pos := by
  have hpart : (text.toList.drop pos).take 1 = text.toList[pos]?.toList := by
    rw [List.take_one, List.head?_drop]
  have hsplit : text.toList = text.toList.take pos ++ text.toList[pos]?.toList ++
      (text.toList.drop pos).drop 1 := by
    rw [← hpart, List.append_assoc, List.take_append_drop, List.take_append_drop]
  have hstart : text.toList = [] ++ text.toList.take pos ++ text.toList.drop pos := by
    rw [List.nil_append, List.take_append_drop]
  have happend (as bs : List Char) : byteSize as + byteSize bs = byteSize (as ++ bs) := by
    rw [byteSize_eq, byteSize_eq, byteSize_eq, List.utf8Encode_append, ByteArray.size_append]
  unfold charSpan
  dsimp only
  rw [hpart]
  refine ⟨?_, extract_part hsplit, isValid_byteSize hstart, ?_, ?_⟩
  · simpa [byteSize] using extract_part hstart
  · rw [happend]
    exact isValid_byteSize hsplit
  · rintro rfl
    have hall : text.toList.take text.length = text.toList := by
      rw [← String.length_toList, List.take_length]
    have hnone : text.toList[text.length]? = none := by
      rw [← String.length_toList]
      exact List.getElem?_length _
    rw [hall, hnone, byteSize_eq, String.utf8Encode_toList, String.size_toByteArray]
    rfl

theorem lineColFrom_append (start : Nat × Nat) (as bs : List Char) :
    lineColFrom start (as ++ bs) = lineColFrom (lineColFrom start as) bs :=
  List.foldl_append

/-- **What line and column count**: the newlines before a position, and the characters since the
last of them. -/
theorem lineCol_eq (cs : List Char) (pos : Nat) :
    lineCol cs pos = (1 + (cs.take pos).count '\n',
      1 + ((cs.take pos).reverse.takeWhile (· ≠ '\n')).length) := by
  unfold lineCol
  generalize cs.take pos = before
  -- the last character decides, so the induction is on the reversed text
  rw [← List.reverse_reverse before]
  induction before.reverse with
  | nil => rfl
  | cons c rest ih =>
    rw [List.reverse_cons, lineColFrom_append, ih, List.reverse_append, List.count_append]
    by_cases hc : c = '\n'
    · subst hc
      simp [lineColFrom, Nat.add_assoc]
    · simp [lineColFrom, hc, Nat.add_assoc]

end Text

/-! ### Trees that cannot be read -/

/-- A computation that fails only because something is malformed. -/
def OnlyMalformed {α : Type} (m : Except Cause α) : Prop :=
  Meets (fun c => ∃ message, c = .malformedGrammar message) (fun _ => True) m

namespace OnlyMalformed

variable {α β : Type}

@[grind .] theorem ok {a : α} : OnlyMalformed (.ok a) := trivial

@[grind .] theorem pure {a : α} : OnlyMalformed (Pure.pure a) := trivial

@[grind .] theorem error {message : String} :
    OnlyMalformed (.error (.malformedGrammar message) : Except Cause α) := ⟨_, rfl⟩

@[grind .] theorem malformed {message : String} {v : Value} :
    OnlyMalformed (Tree.malformed message v : Except Cause α) := ⟨_, rfl⟩

@[grind .] theorem bind {m : Except Cause α} {k : α → Except Cause β} (h : OnlyMalformed m)
    (hk : ∀ a, OnlyMalformed (k a)) : OnlyMalformed (m >>= k) :=
  Meets.bind h fun a _ => hk a

@[grind .] theorem mapM {f : α → Except Cause β} {xs : List α} (h : ∀ x, OnlyMalformed (f x)) :
    OnlyMalformed (xs.mapM f) :=
  (Meets.mapM fun x _ => h x).mono fun _ _ => trivial

@[grind .] theorem name {what : String} {v : Value} : OnlyMalformed (Tree.name what v) := by
  fun_cases Tree.name what v <;> grind

@[grind .] theorem bound {v : Value} : OnlyMalformed (Tree.bound v) := by
  unfold Tree.bound
  split <;> grind

@[grind .] theorem names {what each : String} {v : Value} :
    OnlyMalformed (Tree.names what each v) := by
  fun_cases Tree.names what each v <;> grind

end OnlyMalformed

theorem Action.ofTree_onlyMalformed :
    (∀ v, OnlyMalformed (ofTree v)) ∧ (∀ v, OnlyMalformed (ofList v)) ∧
      ∀ vs, OnlyMalformed (ofTrees vs) := by
  apply ofTree.mutual_induct
  all_goals intros
  -- a tree that has none of the shapes falls through to the message about it
  case case6 | case7 => rw [ofTree]; exact .malformed; all_goals assumption
  case case9 => rw [ofList]; exact .malformed; assumption
  case case8 => rw [ofList]; assumption
  case case10 | case11 => rw [ofTrees]; grind
  all_goals rw [ofTree]; grind

theorem Expr.ofTree_onlyMalformed :
    (∀ v, OnlyMalformed (ofTree v)) ∧ (∀ v, OnlyMalformed (ofList v)) ∧
      ∀ vs, OnlyMalformed (ofTrees vs) := by
  have haction := Action.ofTree_onlyMalformed.1
  have hactions := Action.ofTree_onlyMalformed.2.1
  apply ofTree.mutual_induct (fun v => OnlyMalformed (ofTree v)) (fun v => OnlyMalformed (ofList v))
    (fun vs => OnlyMalformed (ofTrees vs))
  all_goals intros
  case case22 | case23 => rw [ofTree]; exact .malformed; all_goals assumption
  case case25 => rw [ofList]; exact .malformed; assumption
  case case24 => rw [ofList]; assumption
  case case26 | case27 => rw [ofTrees]; grind
  all_goals rw [ofTree]; grind

theorem Rule.ofTree_onlyMalformed (v : Value) : OnlyMalformed (ofTree v) := by
  have hbody := Expr.ofTree_onlyMalformed.1
  fun_cases ofTree v <;> grind

/-- **A tree that cannot be read is malformed**, and nothing else is said of it. -/
theorem Declaration.ofTree_onlyMalformed (v : Value) : OnlyMalformed (ofTree v) := by
  have hrules (w : Value) : OnlyMalformed (rulesOfTree w) := by
    have := Rule.ofTree_onlyMalformed
    fun_cases rulesOfTree w <;> grind
  have hparent (w : Value) : OnlyMalformed (parentOfTree w) := by
    fun_cases parentOfTree w <;> grind
  fun_cases ofTree v <;> grind

/-! ### Matches that end early -/

/-- What an expression cannot mean is a rule or a grammar that is not there. -/
theorem Expr.application?_reportless {d o : Grammar} {e : Expr} {args : List Action} {c : Cause}
    (h : e.application? d o = some (args, .error c)) : c.failure? = none := by
  cases e with
  | apply rule as =>
    simp only [application?, Option.some.injEq, Prod.mk.injEq] at h
    obtain ⟨-, h⟩ := h
    split at h <;> cases h
    rfl
  | super rule as =>
    simp only [application?, Option.some.injEq, Prod.mk.injEq] at h
    obtain ⟨-, h⟩ := h
    split at h <;> cases h
    rfl
  | foreign grammar rule as =>
    simp only [application?, Option.some.injEq, Prod.mk.injEq] at h
    obtain ⟨-, h⟩ := h
    repeat' split at h
    all_goals cases h
    all_goals rfl
  | _ => simp [application?] at h

/-- Causes of actions carry no report. -/
theorem Cause.reportless_of_action {c : Cause} (h : c.category = .action) : c.failure? = none := by
  cases c with
  | grammarLoad | parse | transform => cases h
  | _ => rfl

/-- With standard functions, whatever is applied ends a match early only with a cause that carries
no report. -/
theorem safety_of_reports {registry : Registry} (hr : registry.OfStandard) :
    Safety registry (fun h => ∀ c, h = .fatal c → c.failure? = none) (fun _ _ _ => True) where
  count _ _ c h := by cases h; rfl
  type c h := by cases h; rfl
  action ha c h := by
    cases h
    exact Cause.reportless_of_action (Action.eval_tame hr _ _ _ ha)
  loop c h := by cases h
  limit c h := by cases h; rfl
  dynamic _ _ := trivial
  spaces _ _ := trivial
  body {d o r args e as meaning} _ _ hm := by
    cases meaning with
    | ok gt => exact fun _ _ => trivial
    | error c =>
      intro c' h
      cases h
      exact Expr.application?_reportless hm

/-- **With standard functions, a match ends early only with a cause that carries no report.** -/
theorem Engine.run_reportless {e : Engine} (hr : e.registry.OfStandard) {g : Grammar}
    {rule : String} {input : Input} {args : List Value} {toEnd : Bool} {c : Cause}
    (h : e.run g rule input args toEnd = .error (.fatal c)) : c.failure? = none := by
  cases ht : g.target? rule with
  | some target => exact (safety_of_reports hr).run ht trivial h c rfl
  | none =>
    have hs : e.start (φ := Furthest) g rule input args = .error (.fatal c) := e.run_error h
    unfold start applyName at hs
    rw [ht] at hs
    cases hs
    rfl

/-! ### Descriptions -/

/-- In a text, a report is about a position and its line. -/
theorem Failure.PointsInto.in_text {source : String} {f : Failure}
    (h : f.PointsInto (.ofString source)) :
    ∃ p, f.location = [p] ∧ p ≤ source.length ∧ f.line = some (Text.lineCol source.toList p) := by
  obtain ⟨path, p, contents, hl, hp, hs, hline, -⟩ := h
  cases path with
  | cons i path =>
    have hi : (Input.ofString source).enter? i = none := Input.enter?_of_isText rfl
    simp [Input.follow?, hi] at hp
  | nil =>
    obtain ⟨rfl, -⟩ : Input.ofString source = contents ∧ _ := by simpa [Input.follow?] using hp
    refine ⟨p, hl, ?_, by rw [hline]; rfl⟩
    simpa [Input.ofString, Input.size, String.length_toList] using hs

namespace Library

/-- **An error that a description does not follow the notation** comes from a match that failed, and
is about the place where it failed. -/
theorem parse_grammarLoad {lib : Library} (hr : lib.engine.registry.OfStandard)
    {origin source : String} {err : Error} {failure : Failure}
    (h : lib.parse origin source = .error err) (hc : err.cause = .grammarLoad failure) :
    lib.engine.run lib.reader Notation.entry (.ofString source) [] true =
        .ok (.failure failure) ∧
      err.excerpt = some
        { name := origin, content := source, span := Text.charSpan source failure.position } := by
  unfold parse Engine.matchAll at h
  cases hrun : lib.engine.run lib.reader Notation.entry (.ofString source) [] true with
  | error halt =>
    rw [hrun] at h
    cases h
    -- the match ended early, so its cause is passed on, and it carries no report
    cases halt with
    | exhausted => cases hc
    | fatal c =>
      have hnone := Engine.run_reportless hr hrun
      cases c with
      | grammarLoad f => cases hnone
      | parse f => cases hnone
      | _ => cases hc
  | ok outcome =>
    rw [hrun] at h
    cases outcome with
    | failure f =>
      cases h
      cases hc
      exact ⟨rfl, rfl⟩
    | success v cursor =>
      have hread : (Declaration.ofTree v).mapError (fun cause => ({ cause } : Error)) =
          .error err := h
      have honly := Declaration.ofTree_onlyMalformed v
      cases ht : Declaration.ofTree v with
      | ok d => rw [ht] at hread; cases hread
      | error c =>
        rw [ht] at hread
        cases hread
        obtain ⟨message, rfl⟩ := Meets.error honly ht
        cases hc

/-- **Errors about a description point at the right bytes.** The location is one position, at most
at the end of the text; the label is on the bytes of the character there; and line and column are
counted up to it. -/
theorem parse_points (options : Options) (reader : Grammar) (grammars : List Grammar)
    (origin source : String) {err : Error} {failure : Failure}
    (h : ({ reader, engine := { options }, grammars } : Library).parse origin source = .error err)
    (hc : err.cause = .grammarLoad failure) :
    ∃ p span, failure.location = [p] ∧ p ≤ source.length ∧
      err.excerpt = some { name := origin, content := source, span } ∧
      err.label? = some (err.cause.label, span) ∧ span.Marks source p ∧
      failure.line = some (1 + (source.toList.take p).count '\n',
        1 + ((source.toList.take p).reverse.takeWhile (· ≠ '\n')).length) := by
  obtain ⟨hrun, hexcerpt⟩ := parse_grammarLoad Registry.standard_ofStandard h hc
  obtain ⟨p, hl, hp, hline⟩ := (Engine.run_pointsInto hrun).in_text
  have hpos : failure.position = p := by rw [Failure.position, hl]; rfl
  rw [hpos] at hexcerpt
  refine ⟨p, _, hl, hp, hexcerpt, ?_, Text.charSpan_marks source p, ?_⟩
  · unfold Error.label?
    rw [hexcerpt]
    rfl
  · rw [hline, Text.lineCol_eq]

/-- A description that breaks off on its second line, which begins with a character of four
bytes. -/
def unfinished : String := "grammar é\n😀"

/-- The error about it: at the first character of the second line, which has four bytes. -/
def unfinishedError : Error :=
  { Error.ofSource
      (.grammarLoad
        { location := [10], line := some (2, 1), expected := .ofList ["'<'", "'\x7b'"],
          found := "😀" })
      "draft" unfinished 10 with
    help := some "the grammar description does not follow the notation here" }

/-- After eleven bytes come the four of the character at position ten. -/
theorem parse_points_unfinished :
    ({} : Library).parse "draft" unfinished = .error unfinishedError ∧
      unfinishedError.label? = some (unfinishedError.cause.label, ⟨11, 4⟩) ∧
      Text.Span.Marks unfinished 10 ⟨11, 4⟩ := by
  have hparse : ({} : Library).parse "draft" unfinished = .error unfinishedError := by
    decide +kernel
  have hlabel : unfinishedError.label? = some (unfinishedError.cause.label, ⟨11, 4⟩) := by
    decide +kernel
  obtain ⟨p, span, hl, -, -, hspan, hmarks, -⟩ :=
    parse_points {} Notation.grammar [] "draft" unfinished hparse rfl
  have hp : [10] = [p] := hl
  cases hp
  rw [hlabel] at hspan
  cases hspan
  exact ⟨hparse, rfl, hmarks⟩

end Library

end Packrat
