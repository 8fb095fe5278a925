import Packrat.Engine
import Packrat.Notation.Rules
import Packrat.Proofs.Kinds

/-!
# Numerals

What an expression takes off a text can be told without a look at its value: it is a word that is
put together from the words of its parts. So a text that was matched by the notation's pattern of
numbers has the form of a decimal, and every such text stands for a number.

* `Reply.Took`: a word was taken off the text, or nothing.
* `Expr.Takes`: an expression that takes words of a form.
* `Number.parse?_decimal`: a decimal stands for a number.
* `Notation.numeral_takes`: the pattern of numbers takes texts that stand for numbers.
-/

namespace Packrat

/-! ### Words in a text -/

/-- A word stands in a text at a position. -/
def Stands (chars : Array Char) (pos : Nat) (word : List Char) : Prop :=
  word <+: chars.toList.drop pos

namespace Stands

variable {chars : Array Char} {pos : Nat} {v w : List Char}

theorem append (hv : Stands chars pos v) (hw : Stands chars (pos + v.length) w) :
    Stands chars pos (v ++ w) := by
  obtain ⟨rest, hv⟩ := hv
  obtain ⟨rest', hw⟩ := hw
  rw [← List.drop_drop, ← hv, List.drop_left] at hw
  exact ⟨rest', by rw [List.append_assoc, hw, hv]⟩

theorem slice (h : Stands chars pos w) :
    (Input.text chars).slice pos (pos + w.length) = .string (String.ofList w) := by
  obtain ⟨rest, h⟩ := h
  rw [Input.slice, Array.toList_extract, List.extract_eq_take_drop, ← h, Nat.add_sub_cancel_left,
    List.take_left]

theorem char {c : Char} (h : chars[pos]? = some c) : Stands chars pos [c] := by
  obtain ⟨hlt, hc⟩ := Array.getElem?_eq_some_iff.1 h
  have hlen : pos < chars.toList.length := by simpa using hlt
  refine ⟨chars.toList.drop (pos + 1), ?_⟩
  rw [List.drop_eq_getElem_cons hlen, Array.getElem_toList, hc]
  rfl

/-- A run of characters that was found stands there. -/
theorem of_runEnd? {stop : Nat} : ∀ {cs : List Char} {pos : Nat},
    Input.runEnd? chars pos cs = some stop → Stands chars pos cs ∧ stop = pos + cs.length
  | [], pos, h => by
    cases h
    exact ⟨List.nil_prefix, rfl⟩
  | c :: cs, pos, h => by
    simp only [Input.runEnd?] at h
    split at h
    next hc =>
      obtain ⟨hcs, rfl⟩ := of_runEnd? h
      exact ⟨(char hc).append hcs, by rw [List.length_cons]; omega⟩
    next => cases h

end Stands

variable {φ : Type}

/-- **A word was taken off the text**, one of the given form; a failure takes nothing. -/
def Reply.Took (chars : Array Char) (form : List Char → Prop) (s : State φ) (r : Reply φ) : Prop :=
  match r.value with
  | some _ => ∃ word, form word ∧ Stands chars s.pos word ∧ r.state.pos = s.pos + word.length
  | none => r.state.pos = s.pos

theorem Reply.Took.mono {chars : Array Char} {form form' : List Char → Prop} {s : State φ}
    {r : Reply φ} (h : r.Took chars form s) (hf : ∀ word, form word → form' word) :
    r.Took chars form' s := by
  unfold Took at h ⊢
  split
  next v hv =>
    simp only [hv] at h
    obtain ⟨word, hw, h⟩ := h
    exact ⟨word, hf word hw, h⟩
  next hv => simpa only [hv] using h

/-! ### Repetition -/

/-- A word that words of a form make up, as many of them as a repetition takes. -/
def Repeated (form : List Char → Prop) (min : Nat) (max : Option Nat) (word : List Char) : Prop :=
  ∃ words, (∀ w ∈ words, form w) ∧ word = words.flatten ∧ (words = [] → min = 0) ∧
    ∀ m, max = some m → words.length ≤ m

theorem Repeated.optional {form : List Char → Prop} {word : List Char}
    (h : Repeated form 0 (some 1) word) : word = [] ∨ form word := by
  obtain ⟨words, hw, rfl, -, hm⟩ := h
  match words, hm 1 rfl with
  | [], _ => exact .inl rfl
  | [w], _ => exact .inr (by simpa using hw w List.mem_cons_self)

variable {chars : Array Char} {form : List Char → Prop}

/-- **The rounds of a repetition** take one word each. -/
theorem repeatRounds_took {body : Run φ}
    (hb : ∀ scope s, Meets (fun _ => True) (Reply.Took chars form s) (body scope s))
    (min : Nat) (max : Option Nat) (fuel : Nat) (taken : Array Value) (scope : Scope)
    (s : State φ) :
    Meets (fun _ => True)
      (fun r => ∃ words, (∀ w ∈ words, form w) ∧ Stands chars s.pos words.flatten ∧
        r.2.2.pos = s.pos + words.flatten.length ∧ taken.size + words.length ≤ r.1.size ∧
          (words = [] → r.1.size = taken.size) ∧
            ∀ m, max = some m → taken.size ≤ m → r.1.size ≤ m)
      (repeatRounds body min max fuel taken scope s) := by
  induction fuel generalizing taken scope s with
  | zero =>
    unfold repeatRounds
    split
    · exact ⟨[], by simp, List.nil_prefix, rfl, Nat.le_refl _, fun _ => rfl, fun _ _ h => h⟩
    · trivial
  | succ fuel ih =>
    unfold repeatRounds
    split
    · exact ⟨[], by simp, List.nil_prefix, rfl, Nat.le_refl _, fun _ => rfl, fun _ _ h => h⟩
    next hmax =>
    refine (hb scope s).bind fun r hr => ?_
    obtain ⟨v, scope', t⟩ := r
    cases v with
    | none => exact ⟨[], by simp, List.nil_prefix, hr, Nat.le_refl _, fun _ => rfl, fun _ _ h => h⟩
    | some v =>
      obtain ⟨w, hw, hstands, hpos⟩ := hr
      have hroom : ∀ m, max = some m → taken.size + 1 ≤ m := by
        rintro m rfl
        simpa [Nat.succ_le_iff] using hmax
      dsimp only
      split
      · -- the round took nothing, and counts for all that are missing
        refine ⟨[w], by simpa using hw, by simpa using hstands, by simpa using hpos, ?_,
          by simp, fun m hm _ => ?_⟩
        · simp
        · have hle : requiredRounds min max ≤ m := by
            subst hm
            exact Nat.min_le_right min m
          have := hroom m hm
          simp only [Array.size_append, Array.size_push, Array.size_replicate]
          omega
      · refine (ih (taken.push v) scope' t).mono fun r hr => ?_
        obtain ⟨words, hws, hstands', hpos', hsize, -, hm⟩ := hr
        rw [Array.size_push] at hsize hm
        dsimp only at hpos
        rw [hpos] at hstands' hpos'
        refine ⟨w :: words, List.forall_mem_cons.2 ⟨hw, hws⟩, hstands.append hstands', ?_, ?_,
          by simp, fun m hmax' _ => hm m hmax' (hroom m hmax')⟩
        · rw [hpos', List.flatten_cons, List.length_append, Nat.add_assoc]
        · rw [List.length_cons]
          omega

/-- A repetition takes what the words of its rounds make up. -/
theorem evalRepeat_took {body : Run φ}
    (hb : ∀ scope s, Meets (fun _ => True) (Reply.Took chars form s) (body scope s))
    (min : Nat) (max : Option Nat) (size : Nat) (scope : Scope) (s : State φ) :
    Meets (fun _ => True) (Reply.Took chars (Repeated form min max) s)
      (evalRepeat body min max size scope s) := by
  unfold evalRepeat
  refine (repeatRounds_took hb min max _ #[] scope s).bind fun r hr => ?_
  obtain ⟨taken, scope', t⟩ := r
  obtain ⟨words, hw, hstands, hpos, hsize, hnone, hmax⟩ := hr
  dsimp only at hpos hsize hnone hmax ⊢
  rw [show (#[] : Array Value).size = 0 from rfl] at hsize hnone hmax
  split
  · rfl
  next hmin =>
    refine ⟨words.flatten, ⟨words, hw, rfl, fun h => ?_, fun m hm => ?_⟩, hstands, hpos⟩
    · have := hnone h
      omega
    · have := hmax m hm (Nat.zero_le m)
      omega

/-! ### Expressions -/

variable [Account φ] {apply : Applier φ} {registry : Registry} {g : Grammar}

variable (apply registry g chars) in
/-- **An expression takes words of a form** off a text, wherever it stands in a rule. -/
def Expr.Takes (e : Expr) (form : List Char → Prop) : Prop :=
  ∀ (ctx : Context) (scope : Scope) (s : State φ), ctx.frame.input = .text chars →
    ctx.dispatch = g →
      Meets (fun _ => True) (Reply.Took chars form s) (e.eval apply registry ctx scope s)

namespace Expr.Takes

theorem mono {e : Expr} {form' : List Char → Prop} (h : e.Takes chars apply registry g form)
    (hf : ∀ word, form word → form' word) : e.Takes chars apply registry g form' :=
  fun ctx scope s hi hd => (h ctx scope s hi hd).mono fun _ hr => hr.mono hf

theorem literal (text : String) :
    (Expr.literal text).Takes chars apply registry g (· = text.toList) := by
  intro ctx scope s hi _
  show Reply.Took _ _ _ (Reply.ofAnswer scope (ctx.frame.literal text s))
  unfold Frame.literal Frame.literalEnd?
  rw [hi]
  dsimp only
  split
  next stop hstop =>
    obtain ⟨hstands, rfl⟩ := Stands.of_runEnd? hstop
    exact ⟨_, rfl, hstands, rfl⟩
  next => rfl

/-- A digit, if the name means one. -/
theorem digit {name : String} (hn : g.target? name = some (.builtin .digit)) :
    (Expr.app name).Takes chars apply registry g fun w => ∃ c : Char, c.isDigit ∧ w = [c] := by
  intro ctx scope s hi hd
  subst hd
  have happly : applyName apply ctx.frame ctx.dispatch name [] s =
      .ok (ctx.frame.charIf Char.isDigit "digit" s) := by
    unfold applyName
    rw [hn]
    rfl
  have heval : (Expr.app name).eval apply registry ctx scope s =
      applyName apply ctx.frame ctx.dispatch name [] s >>= fun r => .ok (.ofAnswer scope r) := by
    rw [Expr.app, Expr.eval, Action.evalAll]
    rfl
  rw [heval, happly]
  show Reply.Took _ _ _ (Reply.ofAnswer scope _)
  unfold Frame.charIf
  rw [hi]
  split
  next c hc =>
    split
    next ht => exact ⟨[c], ⟨c, ht, rfl⟩, .char hc, rfl⟩
    next => rfl
  next => rfl

theorem repeated {e : Expr} (h : e.Takes chars apply registry g form) (min : Nat)
    (max : Option Nat) :
    (Expr.repeated e min max).Takes chars apply registry g (Repeated form min max) := by
  intro ctx scope s hi hd
  rw [Expr.eval]
  exact evalRepeat_took (fun scope s => h ctx scope s hi hd) min max _ scope s

/-- The items of a sequence take a word each. -/
theorem items {es : List Expr} {forms : List (List Char → Prop)}
    (h : List.Forall₂ (fun e form => e.Takes chars apply registry g form) es forms)
    (ctx : Context) (hi : ctx.frame.input = .text chars) (hd : ctx.dispatch = g) (last : Value)
    (scope : Scope) (s : State φ) :
    Meets (fun _ => True)
      (fun r => r.value.isSome → ∃ words, List.Forall₂ (fun form w => form w) forms words ∧
        Stands chars s.pos words.flatten ∧ r.state.pos = s.pos + words.flatten.length)
      (Expr.evalSequence apply registry es ctx last scope s) := by
  induction h generalizing last scope s with
  | nil =>
    rw [Expr.evalSequence]
    exact fun _ => ⟨[], .nil, List.nil_prefix, rfl⟩
  | cons he _ ih =>
    rw [Expr.evalSequence]
    refine (he ctx scope s hi hd).bind fun r hr => ?_
    obtain ⟨v, scope', t⟩ := r
    cases v with
    | none => exact fun h => by cases h
    | some v =>
      obtain ⟨w, hw, hstands, hpos⟩ := hr
      refine (ih v scope' t).mono fun r hr hv => ?_
      obtain ⟨words, hws, hstands', hpos'⟩ := hr hv
      dsimp only at hpos
      rw [hpos] at hstands' hpos'
      refine ⟨w :: words, .cons hw hws, hstands.append hstands', ?_⟩
      rw [hpos', List.flatten_cons, List.length_append, Nat.add_assoc]

/-- A sequence takes the words of its items, one after the other. -/
theorem sequence {es : List Expr} {forms : List (List Char → Prop)}
    (h : List.Forall₂ (fun e form => e.Takes chars apply registry g form) es forms) :
    (Expr.sequence es).Takes chars apply registry g fun w =>
      ∃ words, List.Forall₂ (fun form w => form w) forms words ∧ w = words.flatten := by
  intro ctx scope s hi hd
  rw [Expr.eval]
  refine (items h { ctx with sequenceStart := some s.pos } hi hd .nil scope s).bind fun r hr => ?_
  obtain ⟨v, scope', t⟩ := r
  cases v with
  | none => rfl
  | some v =>
    obtain ⟨words, hws, hstands, hpos⟩ := hr rfl
    exact ⟨_, ⟨words, hws, rfl⟩, hstands, hpos⟩

end Expr.Takes

/-! ### Decimals -/

/-- One or more digits. -/
def Number.Digits (ds : List Char) : Prop := ds ≠ [] ∧ ∀ c ∈ ds, c.isDigit = true

/-- The form of a decimal: a minus or none, digits, and perhaps a point with digits after it. -/
def Number.Written (cs : List Char) : Prop :=
  ∃ sign whole fraction, cs = sign ++ (whole ++ fraction) ∧ (sign = [] ∨ sign = ['-']) ∧
    Digits whole ∧ (fraction = [] ∨ ∃ ds, Digits ds ∧ fraction = '.' :: ds)

theorem Text.isBlank_of_isDigit {c : Char} (h : c.isDigit = true) : isBlank c = false := by
  have hc : 48 ≤ c.toNat ∧ c.toNat ≤ 57 := by
    simpa [Char.isDigit, UInt32.le_iff_toNat_le] using h
  simp only [isBlank, blankRanges, List.any_cons, List.any_nil, Bool.or_false, Bool.or_eq_false_iff,
    Bool.and_eq_false_iff, decide_eq_false_iff_not]
  omega

theorem Text.trimBlank_eq {cs : List Char} (h : ∀ c ∈ cs, isBlank c = false) :
    trimBlank cs = cs := by
  have hdrop : ∀ {ds : List Char}, (∀ c ∈ ds, isBlank c = false) → ds.dropWhile isBlank = ds := by
    intro ds hds
    cases ds with
    | nil => rfl
    | cons d ds => rw [List.dropWhile_cons_of_neg (by simp [hds d List.mem_cons_self])]
  rw [trimBlank, hdrop h, hdrop fun c hc => h c (List.mem_reverse.1 hc), List.reverse_reverse]

namespace Number

theorem Digits.takeWhile_append {ds : List Char} (h : Digits ds) (rest : List Char)
    (hr : rest.dropWhile Char.isDigit = rest) :
    (ds ++ rest).takeWhile Char.isDigit = ds ∧ (ds ++ rest).dropWhile Char.isDigit = rest := by
  have hnil : rest.takeWhile Char.isDigit = [] := by
    have hsplit := List.takeWhile_append_dropWhile (p := Char.isDigit) (l := rest)
    rw [hr] at hsplit
    simpa using hsplit
  rw [List.takeWhile_append_of_pos h.2, List.dropWhile_append_of_pos h.2, hnil, hr]
  exact ⟨List.append_nil ds, rfl⟩

/-- Digits and perhaps a fraction are a decimal without a sign. -/
theorem parseDecimal?_isSome {whole fraction : List Char} (hw : Digits whole)
    (hf : fraction = [] ∨ ∃ ds, Digits ds ∧ fraction = '.' :: ds) :
    (parseDecimal? (whole ++ fraction)).isSome = true := by
  have hempty : whole.isEmpty = false := by simpa using hw.1
  unfold parseDecimal?
  rcases hf with rfl | ⟨ds, hds, rfl⟩
  · obtain ⟨htake, hdrop⟩ := hw.takeWhile_append [] rfl
    simp only [htake, hdrop, hempty]
    rfl
  · obtain ⟨htake, hdrop⟩ := hw.takeWhile_append ('.' :: ds) rfl
    obtain ⟨htake', hdrop'⟩ := hds.takeWhile_append [] rfl
    rw [List.append_nil] at htake' hdrop'
    simp only [htake, hdrop, htake', hdrop', hempty]
    rfl

theorem splitSign_digits {whole rest : List Char} (hw : Digits whole) :
    splitSign (whole ++ rest) = (false, whole ++ rest) := by
  obtain ⟨hne, hd⟩ := hw
  cases whole with
  | nil => exact absurd rfl hne
  | cons c cs =>
    have hc : c.isDigit = true := hd c List.mem_cons_self
    unfold splitSign
    split
    next h => cases h; cases hc
    next h => cases h; cases hc
    next => rfl

/-- **A text in the form of a decimal stands for a number.** -/
theorem parse?_written {cs : List Char} (h : Written cs) :
    (parse? (Text.trimBlank cs)).isSome = true := by
  obtain ⟨sign, whole, fraction, rfl, hs, hw, hf⟩ := h
  have hblank : ∀ c ∈ sign ++ (whole ++ fraction), Text.isBlank c = false := by
    intro c hc
    rcases List.mem_append.1 hc with hc | hc
    · rcases hs with rfl | rfl
      · cases hc
      · cases List.mem_singleton.1 hc
        rfl
    rcases List.mem_append.1 hc with hc | hc
    · exact Text.isBlank_of_isDigit (hw.2 c hc)
    rcases hf with rfl | ⟨ds, hds, rfl⟩
    · cases hc
    · rcases List.mem_cons.1 hc with rfl | hc
      · rfl
      · exact Text.isBlank_of_isDigit (hds.2 c hc)
  -- without white space around it, what follows the sign is a decimal
  obtain ⟨negative, hsplit⟩ : ∃ negative,
      splitSign (sign ++ (whole ++ fraction)) = (negative, whole ++ fraction) := by
    rcases hs with rfl | rfl
    · rw [List.nil_append]
      exact ⟨false, splitSign_digits hw⟩
    · exact ⟨true, rfl⟩
  obtain ⟨d, hd⟩ := Option.isSome_iff_exists.1 (parseDecimal?_isSome hw hf)
  rw [Text.trimBlank_eq hblank]
  unfold parse?
  simp only [hsplit, hd]
  rfl

end Number

/-! ### The pattern of numbers -/

namespace Notation

/-- The pattern of numbers: a minus or none, digits, and perhaps a point with digits after it. -/
def numeral : Expr :=
  .sequence [.opt (.literal "-"), .many1 (.app "digit"),
    .opt (.sequence [.literal ".", .many1 (.app "digit")])]

theorem digits_of_repeated {word : List Char}
    (h : Repeated (fun w => ∃ c : Char, c.isDigit ∧ w = [c]) 1 none word) :
    Number.Digits word := by
  obtain ⟨words, hw, rfl, hne, -⟩ := h
  refine ⟨fun hnil => ?_, fun c hc => ?_⟩
  · cases words with
    | nil => exact absurd (hne rfl) (by decide)
    | cons w words =>
      obtain ⟨c, -, rfl⟩ := hw w List.mem_cons_self
      simp at hnil
  · obtain ⟨w, hmem, hc⟩ := List.mem_flatten.1 hc
    obtain ⟨d, hd, rfl⟩ := hw w hmem
    cases List.mem_singleton.1 hc
    exact hd

/-- **What the pattern of numbers takes stands for a number.** -/
theorem numeral_takes (hd : g.target? "digit" = some (.builtin .digit)) :
    numeral.Takes chars apply registry g fun w =>
      (Number.parse? (Text.trimBlank w)).isSome = true := by
  have hdigits : (Expr.many1 (.app "digit")).Takes chars apply registry g
      (Repeated (fun w => ∃ c : Char, c.isDigit ∧ w = [c]) 1 none) :=
    (Expr.Takes.digit hd).repeated 1 none
  have hfraction := Expr.Takes.sequence (.cons (.literal ".") (.cons hdigits .nil))
  refine (Expr.Takes.sequence (.cons ((Expr.Takes.literal "-").repeated 0 (some 1))
    (.cons hdigits (.cons (hfraction.repeated 0 (some 1)) .nil)))).mono fun word h => ?_
  -- three words: the sign, the digits before the point, and the point with the digits after it
  obtain ⟨words, hwords, rfl⟩ := h
  obtain _ | ⟨hsign, _ | ⟨hwhole, _ | ⟨hfraction, _ | _⟩⟩⟩ := hwords
  refine Number.parse?_written ⟨_, _, _, by simp, hsign.optional, digits_of_repeated hwhole,
    hfraction.optional.imp_right fun h => ?_⟩
  obtain ⟨parts, hparts, rfl⟩ := h
  obtain _ | ⟨rfl, _ | ⟨hds, _ | _⟩⟩ := hparts
  exact ⟨_, digits_of_repeated hds, by simp⟩

end Notation

end Packrat
