import Packrat.Proofs.Congruence
import Packrat.Proofs.Counts
import Packrat.Proofs.Rendering

/-!
# Texts and lists of characters

A text may be matched as it is, or as the list of its characters, each of them a string. Most of
what a match does looks at one element at a time and then comes to the same. The exceptions are what
enters a string or hands out a piece of the input, what reads several characters at once, and the
built-in rules that ask for the column of a text or for an item that is a string. A match that comes
upon none of them goes alike over both.

Accounts of failure are compared by the furthest place, since white space before a failed rule is
part of it in a text and not among items, which shows in what was expected.

* `Furthest.place`: the account that keeps the furthest place and nothing else.
* `Input.spelled`: the list of the characters of a text.
* `Grammar.charwise`: applications that go by single characters.
* `applyDepth_spelled`: these are carried out alike in both inputs.
* `Engine.matchRule_spelled`: whole matches.
-/

namespace Packrat

/-! ### The furthest place -/

/-- The furthest place that was missed, if any was. -/
abbrev Furthest.Place := Option (List Nat)

/-- The further of two places. -/
def Furthest.Place.append : Furthest.Place → Furthest.Place → Furthest.Place
  | place, none => place
  | none, some l => some l
  | some a, some l => some (if compare l a = .gt then l else a)

instance : Account Furthest.Place where
  empty := none
  miss frame pos _ := some (frame.location pos)
  append := Furthest.Place.append
  ofRule _ rule _ _ inside := if rule = "spaces" then none else inside
  ofNegation _ := none

/-- Where the furthest miss is. -/
def Furthest.place (a : Furthest) : Furthest.Place := a.map Miss.location

theorem Miss.location_merge (a b : Miss) :
    (a.merge b).location = if compare b.location a.location = .gt then b.location
      else a.location := by
  unfold merge
  cases compare b.location a.location <;> rfl

/-- **The furthest place can be kept by itself**: nothing else of a miss bears on it. -/
def Rendering.places : Rendering Furthest Furthest.Place where
  accounts a b := a.place = b
  empty := rfl
  miss := rfl
  append := by
    rintro a b _ _ rfl rfl
    cases b with
    | none => cases a <;> rfl
    | some m =>
      cases a with
      | none => rfl
      | some n => exact congrArg some (n.location_merge m)
  rule := by
    rintro f rule start failed a _ rfl
    show (Furthest.ofRule f rule start failed a).place = if rule = "spaces" then none else a.place
    unfold Furthest.ofRule
    by_cases h : rule = "spaces"
    · rw [if_pos h, if_pos h]
      rfl
    rw [if_neg h, if_neg h]
    cases failed with
    | false => rfl
    | true =>
      cases a with
      | none => rfl
      | some m =>
        simp only [if_true, Furthest.place, Option.map_some]
        split <;> rfl
  negation _ := rfl

/-! ### Inputs -/

/-- The list of the characters of a text, each of them a string. -/
def Input.spelled (text : String) : Input := .ofList (text.toList.map fun c => .string c.toString)

/-- Whether a value is a string of one character. -/
def Value.isChar (v : Value) : Bool := v.char?.isSome

/-- Whether an action is a string of one character. -/
def Action.isChar : Action → Bool
  | .literal v => v.isChar
  | _ => false

/-- A string of one character is the string of that character. -/
theorem Value.eq_of_char? {v : Value} {c : Char} (h : v.char? = some c) :
    v = .string c.toString := by
  cases v with
  | string s =>
    simp only [char?] at h
    split at h
    next d hs =>
      cases h
      refine congrArg Value.string (String.ext ?_)
      rw [hs, Char.toString, String.toList_singleton]
    next => cases h
  | _ => cases h

theorem Value.char?_toString (c : Char) : (Value.string c.toString).char? = some c := by
  simp [char?, Char.toString]

theorem Value.equals_string (s : String) (v : Value) :
    (Value.string s).equals v = decide (v = .string s) := by
  cases v with
  | string t =>
    rw [Bool.eq_iff_iff, decide_eq_true_iff, string.injEq]
    exact beq_iff_eq.trans eq_comm
  | _ => simp [equals, agree]

/-- A character equals a value that is a string of the same character, and no other. -/
theorem Value.equals_char (c : Char) (v : Value) :
    (Value.string c.toString).equals v = v.char?.any fun d => some c == some d := by
  rw [equals_string, Bool.eq_iff_iff, decide_eq_true_iff]
  cases hv : v.char? with
  | none =>
    refine ⟨fun h => ?_, fun h => by cases h⟩
    rw [h, char?_toString] at hv
    cases hv
  | some d =>
    rw [eq_of_char? hv]
    constructor
    · intro h
      have hcd := congrArg Value.char? h
      rw [char?_toString, char?_toString] at hcd
      simpa using hcd.symm
    · intro h
      rw [show c = d by simpa using h]

namespace Input

variable (text : String) (pos : Nat)

theorem size_spelled : (spelled text).size = (ofString text).size := by
  simp [spelled, ofList, ofString, size]

theorem element?_spelled : (spelled text).element? pos = (ofString text).element? pos := by
  simp [spelled, ofList, ofString, element?]

theorem char?_spelled : (spelled text).char? pos = (ofString text).char? pos := by
  simp only [spelled, ofList, ofString, char?, List.getElem?_toArray, List.getElem?_map]
  cases text.toList[pos]? with
  | none => rfl
  | some c => exact Value.char?_toString c

theorem skipBlanksUpTo_spelled (fuel : Nat) :
    (spelled text).skipBlanksUpTo fuel pos = (ofString text).skipBlanksUpTo fuel pos := by
  induction fuel generalizing pos with
  | zero => rfl
  | succ fuel ih => rw [skipBlanksUpTo, skipBlanksUpTo, char?_spelled, ih]

theorem skipBlanks_spelled : (spelled text).skipBlanks pos = (ofString text).skipBlanks pos := by
  rw [skipBlanks, skipBlanks, size_spelled, skipBlanksUpTo_spelled]

end Input

/-! ### Single elements -/

namespace Frame

variable (text : String)

/-- The frame of a text. -/
def ofText : Frame := { input := .ofString text }

/-- The frame of the characters of a text. -/
def ofChars : Frame := { input := .spelled text }

theorem any_ofChars : (ofChars text).any (φ := Furthest.Place) = (ofText text).any := by
  funext st
  unfold any ofChars ofText
  rw [Input.element?_spelled]
  rfl

theorem charIf_ofChars (test : Char → Bool) (label : String) :
    (ofChars text).charIf (φ := Furthest.Place) test label = (ofText text).charIf test label := by
  funext st
  unfold charIf ofChars ofText
  rw [Input.char?_spelled]
  rfl

theorem hasExactly_ofChars (pos : Nat) (v : Value) :
    (ofChars text).hasExactly pos v = (ofText text).hasExactly pos v := by
  simp only [ofChars, ofText, hasExactly, Input.spelled, Input.ofList, Input.ofString,
    List.getElem?_toArray, List.getElem?_map]
  cases text.toList[pos]? with
  | none => cases v.char? <;> rfl
  | some c => exact Value.equals_char c v

theorem exactly_ofChars (v : Value) :
    (ofChars text).exactly (φ := Furthest.Place) v = (ofText text).exactly v := by
  funext st
  unfold exactly
  rw [hasExactly_ofChars]
  rfl

/-- A literal of one character is one element. -/
theorem literalEnd?_ofChars {literal : String} (h : (Value.string literal).isChar = true)
    (pos : Nat) : (ofChars text).literalEnd? pos literal = (ofText text).literalEnd? pos literal := by
  obtain ⟨c, hc⟩ := Option.isSome_iff_exists.1 h
  obtain rfl : literal = c.toString := Value.string.inj (Value.eq_of_char? hc)
  simp only [ofChars, ofText, literalEnd?, Input.spelled, Input.ofList, Input.ofString,
    List.getElem?_toArray, List.getElem?_map, Char.toString, String.toList_singleton, Input.runEnd?]
  cases text.toList[pos]? with
  | none => rfl
  | some d =>
    have hiff : (String.singleton d = String.singleton c) ↔ d = c :=
      ⟨fun h => by simpa using congrArg String.toList h, fun h => h ▸ rfl⟩
    simp [Value.string?, hiff]

theorem literal_ofChars {literal : String} (h : (Value.string literal).isChar = true) :
    (ofChars text).literal (φ := Furthest.Place) literal = (ofText text).literal literal := by
  funext st
  unfold Frame.literal
  rw [literalEnd?_ofChars text h]
  rfl

/-- A character is no number. -/
theorem number_ofChars (label : String) :
    (ofChars text).itemIf (φ := Furthest.Place) (fun v => v.number?.isSome) label =
      (ofText text).itemIf (fun v => v.number?.isSome) label := by
  funext st
  simp only [ofChars, ofText, itemIf, Input.spelled, Input.ofList, Input.ofString,
    List.getElem?_toArray, List.getElem?_map]
  cases text.toList[st.pos]? <;> rfl

theorem sequel_ofChars {v : Value} (h : v.isChar = true) :
    (ofChars text).sequel (φ := Furthest.Place) v = (ofText text).sequel v := by
  cases v with
  | string literal =>
    funext st
    simp only [sequel, literal_ofChars text h]
  | _ => cases h

end Frame

/-! ### Applications -/

/-- Whether a built-in rule matches its arguments as runs of characters. -/
def Builtin.readsText : Builtin → Bool
  | seq | token => true
  | _ => false

/-- What runs of characters are matched against single elements: any that has one character. -/
def Target.onChars {α : Type} (isChar : α → Bool) (args : List α) : Target → Bool
  | .rule _ _ => true
  | .builtin b => !b.readsText || args.all isChar

/-- Whether an expression in a rule of `o` that runs on behalf of `d` goes by single characters:
it neither enters elements nor hands out a piece of the input, and runs of characters that it
matches have one. -/
def Expr.charwise (d o : Grammar) : Expr → Bool
  | .nested _ | .capture _ => false
  | .literal text => (Value.string text).isChar
  | e =>
    match e.application? d o with
    | some (as, .ok (_, target)) => target.onChars Action.isChar as
    | _ => true

/-- **Whether what is applied on behalf of `d` goes by single characters**, and neither asks for a
column or an item that is a string nor looks up a name at run time. -/
def Grammar.charwise (d : Grammar) : Target → Bool
  | .rule o r => r.body.subexprs.all (Expr.charwise d o)
  | .builtin .string | .builtin .col | .builtin .apply => false
  | .builtin _ => true

theorem Action.evalAll_chars {registry : Registry} {scope : Scope} : ∀ {as : List Action}
    {args : List Value}, as.all isChar = true → evalAll registry scope as = .ok args →
      args.all Value.isChar = true
  | [], args, _, h => by
    rw [evalAll] at h
    cases h
    rfl
  | a :: as, args, ha, h => by
    rw [List.all_cons, Bool.and_eq_true] at ha
    cases a with
    | literal v =>
      rw [evalAll, eval] at h
      obtain ⟨vs, hvs, h⟩ := bind_eq_ok (m := evalAll registry scope as) h
      cases h
      rw [List.all_cons, Bool.and_eq_true]
      exact ⟨ha.1, evalAll_chars ha.2 hvs⟩
    | _ => cases ha.1

/-- What is applied on single characters is applied on the values of actions that are such. -/
theorem Target.onChars_values {registry : Registry} {scope : Scope} {as : List Action}
    {args : List Value} {target : Target} (h : target.onChars Action.isChar as = true)
    (hv : Action.evalAll registry scope as = .ok args) :
    target.onChars Value.isChar args = true := by
  cases target with
  | rule o r => rfl
  | builtin b =>
    rw [onChars, Bool.or_eq_true] at h ⊢
    exact h.imp_right fun ha => Action.evalAll_chars ha hv

section Applications

variable {apply : Applier Furthest.Place} {text : String} {d : Grammar}

open Packrat.Frame (ofText ofChars)

theorem applySpaces_ofChars (hr : ∀ o r, d.resolve? "spaces" = some (o, r) →
      apply (ofChars text) d o r [] = apply (ofText text) d o r []) :
    applySpaces apply (ofChars text) d = applySpaces apply (ofText text) d := by
  funext st
  unfold applySpaces
  cases hs : d.resolve? "spaces" with
  | some x => simp only [hr x.1 x.2 hs]
  | none => simp only [ofChars, ofText, Input.skipBlanks_spelled]

/-- **Built-in rules do the same to single characters** in a text and in a list. -/
theorem applyBuiltin_ofChars {b : Builtin} {args : List Value}
    (hb : d.charwise (.builtin b) = true)
    (hargs : (Target.builtin b).onChars Value.isChar args = true)
    (hc : (Target.builtin b).arity.accepts args.length = true)
    (hr : b = .token → ∀ o r, d.resolve? "spaces" = some (o, r) →
      apply (ofChars text) d o r [] = apply (ofText text) d o r []) :
    applyBuiltin apply (ofChars text) d b args = applyBuiltin apply (ofText text) d b args := by
  -- what is matched as a run of characters has one argument, which is a character
  have harg (hread : b.readsText = true) (hone : b.arity = .exactly 1) :
      (args.headD .nil).isChar = true := by
    rw [Target.onChars, hread, Bool.not_true, Bool.false_or] at hargs
    match args with
    | [v] => simpa using hargs
    | [] => rw [Target.arity, hone] at hc; cases hc
    | _ :: _ :: _ => simp [Target.arity, hone, Arity.accepts] at hc
  cases b with
  | anything => exact funext fun st => congrArg Except.ok (congrFun (Frame.any_ofChars text) st)
  | «end» =>
    funext st
    simp only [applyBuiltin, ofChars, ofText, Input.size_spelled]
    rfl
  | empty | pos => rfl
  | spaces =>
    funext st
    simp only [applyBuiltin, ofChars, ofText, Input.skipBlanks_spelled]
  | space | digit | letter | char =>
    exact funext fun st => congrArg Except.ok (congrFun (Frame.charIf_ofChars text _ _) st)
  | number => exact funext fun st => congrArg Except.ok (congrFun (Frame.number_ofChars text _) st)
  | exactly => exact funext fun st => congrArg Except.ok (congrFun (Frame.exactly_ofChars text _) st)
  | seq => exact Frame.sequel_ofChars text (harg rfl rfl)
  | token =>
    funext st
    simp only [applyBuiltin, applyToken, applySpaces_ofChars (hr rfl),
      Frame.sequel_ofChars text (harg rfl rfl)]
  | string | col | apply => cases hb

/-- **What goes by single characters is applied alike** to a text and to its characters. -/
theorem applyTarget_ofChars {target : Target} {args : List Value}
    (ht : d.charwise target = true) (hargs : target.onChars Value.isChar args = true)
    (hr : ∀ o r, target = .rule o r → apply (ofChars text) d o r args = apply (ofText text) d o r args)
    (hs : target = .builtin .token → ∀ o r, d.resolve? "spaces" = some (o, r) →
      apply (ofChars text) d o r [] = apply (ofText text) d o r []) :
    applyTarget apply (ofChars text) d target args = applyTarget apply (ofText text) d target args := by
  funext st
  cases target with
  | rule o r =>
    unfold applyTarget
    simp only [hr o r rfl]
  | builtin b =>
    have hbuiltin (hc : (Target.builtin b).arity.accepts args.length = true) :=
      applyBuiltin_ofChars ht hargs hc fun h => hs (congrArg Target.builtin h)
    unfold applyTarget Target.checkCount
    split
    next hc =>
      cases b with
      | apply => cases ht
      | _ => exact congrFun (hbuiltin hc) st
    next => rfl

end Applications

/-! ### Whole runs -/

section Runs

open Packrat.Frame (ofText ofChars)

variable {home : Grammar} {start : Target} (text : String) (keep : Bool) (registry : Registry)
  (limit : Nat)

section Bodies

variable {apply : Applier Furthest.Place}
  (hreach : ∀ d target, Reachable home start d target → d.charwise target = true)
  (hr : ∀ d o r args, Reachable home start d (.rule o r) →
    apply (ofChars text) d o r args = apply (ofText text) d o r args)
  {d o : Grammar} {target : Target} {args : List Value} {r : Rule}

include hreach hr

/-- What is reachable is applied alike, if reachable rules are. -/
theorem target_ofChars (h : Reachable home start d target)
    (hargs : target.onChars Value.isChar args = true) :
    applyTarget apply (ofChars text) d target args =
      applyTarget apply (ofText text) d target args := by
  refine applyTarget_ofChars (hreach d target h) hargs (fun o r ht => ?_) fun ht o r hs => ?_
  · subst ht
    exact hr d o r args h
  · subst ht
    exact hr d o r [] (h.spaces hs)

/-- The leaves of a reachable rule come to the same. -/
theorem leaf_ofChars (h : Reachable home start d (.rule o r)) {e : Expr}
    (he : e ∈ r.body.subexprs) (hleaf : e.isLeaf = true) (p : Option Nat) :
    e.eval apply registry ⟨ofChars text, d, o, p⟩ = e.eval apply registry ⟨ofText text, d, o, p⟩ := by
  have hchar : e.charwise d o = true := List.all_eq_true.1 (hreach _ _ h) e he
  have happly {as : List Action} {meaning : Except Cause (Grammar × Target)}
      (hm : e.application? d o = some (as, meaning))
      (hon : ∀ g t, meaning = .ok (g, t) → t.onChars Action.isChar as = true) :
      e.eval apply registry ⟨ofChars text, d, o, p⟩ =
        e.eval apply registry ⟨ofText text, d, o, p⟩ := by
    refine eval_application_congr hm hm fun scope args hv => ?_
    cases meaning with
    | error c => rfl
    | ok step =>
      exact target_ofChars text hreach hr (h.application he hm)
        (Target.onChars_values (hon _ _ rfl) hv)
  funext scope st
  cases e with
  | any => rw [Expr.eval, Expr.eval, Frame.any_ofChars]
  | terminal v => rw [Expr.eval, Expr.eval, Frame.exactly_ofChars]
  | literal l => rw [Expr.eval, Expr.eval, Frame.literal_ofChars text hchar]
  | range low high => rw [Expr.eval, Expr.eval, Frame.charIf_ofChars]
  | action | guard => rfl
  | apply | super | foreign =>
    refine congrFun (congrFun (happly rfl fun g t hg => ?_) scope) st
    simp only [Expr.charwise, Expr.application?, hg] at hchar
    exact hchar
  | _ => cases hleaf

/-- **The bodies of reachable rules run alike**, if reachable rules are applied alike. -/
theorem runBody_ofChars (h : Reachable home start d (.rule o r)) (args : List Value) :
    runBody apply registry (ofChars text) d o r args =
      runBody apply registry (ofText text) d o r args := by
  have hbody : ∀ e ∈ r.body.subexprs, e.charwise d o = true :=
    List.all_eq_true.1 (hreach _ _ h)
  have H : Leafwise apply apply registry (fun c c' => ∃ p,
      c = ⟨ofChars text, d, o, p⟩ ∧ c' = ⟨ofText text, d, o, p⟩) r.body.subexprs :=
    { leaf := by
        rintro e _ _ he hleaf ⟨p, rfl, rfl⟩
        exact leaf_ofChars text registry hreach hr h he hleaf p
      sequence := by
        rintro _ _ q ⟨p, rfl, rfl⟩
        exact ⟨_, rfl, rfl⟩
      size := by
        rintro _ _ ⟨p, rfl, rfl⟩
        exact Input.size_spelled text
      capture := fun he _ => by cases hbody _ he
      nested := fun he _ => by cases hbody _ he }
  funext st
  unfold runBody
  rw [H.eval r.body ⟨none, rfl, rfl⟩]

end Bodies

/-- An application through the table goes by the size of the input and by its body. -/
theorem memoized_ofChars (call : Call) (body : Attempt Furthest.Place) :
    memoized keep (ofChars text) call body = memoized keep (ofText text) call body := by
  funext st
  have hripened (spot : Spot) (mark : Nat) (st : State Furthest.Place) :
      ripened body (ofChars text) spot mark st = ripened body (ofText text) spot mark st := by
    unfold ripened ofChars ofText
    simp only [Input.size_spelled]
  cases hst : st.memo.get? (st.pos, call) with
  | none =>
    rw [memoized_of_none hst, memoized_of_none hst, hripened]
    rfl
  | some entry =>
    cases entry with
    | active met => rw [memoized_of_active hst, memoized_of_active hst]
    | done v stop a => rw [memoized_of_done hst, memoized_of_done hst]

/-- **Reachable rules are applied alike** to a text and to its characters, at any depth. -/
theorem applyDepth_ofChars
    (hreach : ∀ d target, Reachable home start d target → d.charwise target = true) (depth : Nat)
    (d o : Grammar) (r : Rule) (args : List Value) (h : Reachable home start d (.rule o r)) :
    applyDepth (memoized keep) registry limit depth (ofChars text) d o r args =
      applyDepth (φ := Furthest.Place) (memoized keep) registry limit depth (ofText text) d o r
        args := by
  induction depth generalizing d o r args with
  | zero => rfl
  | succ depth ih =>
    funext st
    unfold applyDepth
    rw [memoized_ofChars, runBody_ofChars text registry hreach ih h]

end Runs

/-- What a match comes to: the value and where it ends, or where it fails. -/
def Outcome.outline : Outcome → Option Value × List Nat
  | .success v c => (some v, [c.pos])
  | .failure f => (none, f.location)

namespace Engine

/-- What an answer whose account keeps the furthest place comes to. -/
def outline (r : Answer Furthest.Place) : Option Value × List Nat :=
  match r.1 with
  | some v => (some v, [r.2.pos])
  | none => (none, r.2.account.getD [r.2.pos])

theorem outline_conclude {input : Input} {r : Answer Furthest} {r' : Answer Furthest.Place}
    (hv : r.1 = r'.1) (hpos : r.2.pos = r'.2.pos) (ha : r.2.account.place = r'.2.account) :
    (conclude input false r).outline = outline r' := by
  obtain ⟨v, pos, memo, account⟩ := r
  obtain ⟨v', pos', memo', account'⟩ := r'
  obtain rfl : v = v' := hv
  obtain rfl : pos = pos' := hpos
  obtain rfl : account.place = account' := ha
  cases v with
  | some v => rfl
  | none => cases account <;> rfl

/-- What a match comes to can be told with the furthest place for its account. -/
theorem matchRule_outline (e : Engine) (g : Grammar) (rule : String) (input : Input)
    (args : List Value) :
    (e.matchRule g rule input args).map Outcome.outline =
      ((e.start g rule input args).map outline).mapError e.causeOfHalt := by
  have hsame := e.start_renders Rendering.places g rule input args
  unfold matchRule
  rw [run_eq]
  cases hs : e.start (φ := Furthest.Place) g rule input args with
  | error h =>
    rw [hs] at hsame
    rw [hsame.resolve_left id]
    rfl
  | ok r =>
    rw [hs] at hsame
    obtain ⟨s, hm, hpos, ha⟩ := hsame
    rw [hm]
    exact congrArg Except.ok (outline_conclude rfl hpos ha)

/-- **A text matches like the list of its characters**, if all that a match may come to goes by
single characters: to the same value at the same position, to a failure at the same place, or to the
same error. -/
theorem matchRule_spelled (e : Engine) (g : Grammar) (rule text : String) (args : List Value)
    (hargs : ∀ start, g.target? rule = some start → start.onChars Value.isChar args = true)
    (hreach : ∀ start, g.target? rule = some start →
      ∀ d target, Reachable g start d target → d.charwise target = true) :
    (e.matchRule g rule (.spelled text) args).map Outcome.outline =
      (e.matchRule g rule (.ofString text) args).map Outcome.outline := by
  rw [matchRule_outline, matchRule_outline]
  have hstart : e.start (φ := Furthest.Place) g rule (.spelled text) args =
      e.start g rule (.ofString text) args := by
    unfold start applyName
    cases ht : g.target? rule with
    | none => rfl
    | some target =>
      have hrules := applyDepth_ofChars text e.options.memoize e.registry e.options.maxDepth
        (hreach target ht) e.options.maxDepth
      exact congrFun (target_ofChars text (hreach target ht) hrules .start (hargs target ht)) _
  rw [hstart]

/-- A left-recursive grammar of sums of digits with white space of its own:
`sum = x:sum "+" y:digit -> [x, y] / digit` and `spaces = '_'*`. -/
def spacedSums : Grammar :=
  Draft.freeze
    { name := "SpacedSums"
      rules := [
        { name := "sum"
          body := .choice [.sequence [.bind "x" (.app "sum"), .token "+", .bind "y" (.app "digit"),
            .action (.list [.var "x", .var "y"])], .app "digit"] },
        { name := "spaces", body := .many (.literal "_") }] }

/-- A sum as a text and as a list of characters, up to where it breaks off. -/
theorem matchRule_spelled_sums :
    (({} : Engine).matchRule spacedSums "sum" (.spelled "1_+2_+x") []).map Outcome.outline =
        (({} : Engine).matchRule spacedSums "sum" (.ofString "1_+2_+x") []).map Outcome.outline ∧
      (({} : Engine).matchRule spacedSums "sum" (.spelled "1_+2_+x") []).toOption.map
          (fun outcome => outcome.outline.2) = some [4] := by
  have ht : spacedSums.target? "sum" = some (ruleOf spacedSums "sum") := by decide +kernel
  refine ⟨matchRule_spelled {} spacedSums "sum" "1_+2_+x" [] (fun start h => ?_)
    (fun start h d target hr => ?_), by decide +kernel⟩
  · rw [ht] at h
    cases h
    rfl
  · rw [ht] at h
    cases h
    -- the list is closed under `next`, so a match comes to nothing else
    have hmem : (d, target) ∈ [ruleOf spacedSums "sum", .builtin .token, .builtin .digit,
        ruleOf spacedSums "spaces"].map fun target => (spacedSums, target) :=
      hr.mem (by decide +kernel) (by decide +kernel)
    have hchar : ∀ step ∈ [ruleOf spacedSums "sum", .builtin .token, .builtin .digit,
        ruleOf spacedSums "spaces"].map fun target => (spacedSums, target),
        step.1.charwise step.2 = true := by decide +kernel
    exact hchar _ hmem

end Engine

end Packrat
