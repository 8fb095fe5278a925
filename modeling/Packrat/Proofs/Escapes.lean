import Packrat.Proofs.Scanning
import Packrat.Proofs.Stamps

/-!
# Escapes are read back

Writing a text inside double quotes is a function on characters; reading it back is the work of four
rules of the notation and two functions that they call. The two know nothing of each other, and
meet here: whatever a text is escaped to, the notation reads as that text, and stops at the quote
that closes it.

* `Text.unescape_escapeChar`: a character is written as itself, or after a backslash as something
  that stands for it there.
* `Notation.TakesChars`: the rule `dqChar` takes exactly what one character is written as.
* `Notation.rounds_dqChar`: its rounds take an escaped text and end at the closing quote.
* `Notation.dqString_escape`: what a text is escaped to is read back as that text.
-/

namespace Packrat

/-! ### Single characters -/

namespace Text

/-- **How a character is written**: after a backslash, as something that stands for it there, or as
itself, if it is neither a backslash nor a quote. -/
theorem unescape_escapeChar (c : Char) :
    (∃ d, escapeChar c = ['\\', d] ∧ unescape d.toString = c.toString) ∨
      escapeChar c = [c] ∧ c ≠ '\\' ∧ c ≠ '"' := by
  unfold escapeChar
  split
  · next h => exact .inl ⟨'n', rfl, h ▸ rfl⟩
  split
  · next h => exact .inl ⟨'r', rfl, h ▸ rfl⟩
  split
  · next h => exact .inl ⟨'t', rfl, h ▸ rfl⟩
  split
  · next h => exact .inl ⟨'f', rfl, h ▸ rfl⟩
  split
  · next h => exact .inl ⟨'"', rfl, by rw [h]; rfl⟩
  split
  · next h => exact .inl ⟨'\\', rfl, by rw [h]; rfl⟩
  · next hquote hslash => exact .inr ⟨rfl, hslash, hquote⟩

end Text

/-- Single characters run together. -/
theorem Text.intercalate_chars : ∀ cs : List Char,
    "".intercalate (cs.map Char.toString) = String.ofList cs
  | [] => rfl
  | [c] => rfl
  | c :: d :: cs => by
    have hrest : "".intercalate (d.toString :: cs.map Char.toString) = String.ofList (d :: cs) :=
      intercalate_chars (d :: cs)
    rw [List.map_cons, List.map_cons, String.intercalate_cons_cons, hrest, ← String.toList_inj]
    simp

/-- The shown forms of single characters, run together. -/
theorem Native.joined_chars (cs : List Char) :
    joined "" (cs.map fun c => .string c.toString) = .string (String.ofList cs) := by
  have hshown : Value.displayAll (cs.map fun c => .string c.toString) = cs.map Char.toString := by
    induction cs with
    | nil => rfl
    | cons c cs ih => rw [List.map_cons, Value.displayAll, ih]; rfl
  rw [joined, hshown, Text.intercalate_chars]

/-! ### The rules -/

namespace Notation

open Scan

variable {depth pos : Nat} {cs rest : List Char} {c d : Char} {calls : Calls} {found : Found}

/-- The body of the rule `escape`. -/
abbrev escapeBody : Expr := yields [.literal "\\", .bind "c" .any] (fn "unescape" [val "c"])

/-- The body of the rule `dqChar`. -/
abbrev dqCharBody : Expr := .choice [.app "escape", .sequence [.not (.literal "\""), .any]]

/-- The body of the rule `dqString`. -/
abbrev dqStringBody : Expr :=
  yields [.literal "\"", .bind "cs" (.many (.app "dqChar")), .literal "\""] (fn "join" [val "cs"])

theorem rule?_escape : grammar.rule? "escape" = some (rule "escape" escapeBody) := by
  decide +kernel

theorem rule?_dqChar : grammar.rule? "dqChar" = some (rule "dqChar" dqCharBody) := by
  decide +kernel

theorem rule?_dqString : grammar.rule? "dqString" = some (rule "dqString" dqStringBody) := by
  decide +kernel

/-- A rule of the notation is scanned as its body is. -/
theorem scan_rule {name : String} {body : Expr} {scope : Scope}
    (hr : grammar.rule? name = some (rule name body))
    (hbody : (body.code .standard).run (scan .standard grammar depth) [] pos cs =
      some (found, scope)) :
    scan .standard grammar (depth + 1) name [] pos cs = some found := by
  rw [scan, job, grammar_alone.target?_of_rule? hr]
  simp only [Job.run, rule, List.length_nil, if_true]
  rw [show Scope.ofParams [] [] = [] from rfl, hbody]

/-- The code of a name without arguments is what the name gives. -/
theorem app_run (name : String) {scope : Scope} (h : calls name [] pos cs = some found) :
    ((Expr.app name).code .standard).run calls scope pos cs = some (found, scope) := by
  simp only [Expr.app, Expr.code, Action.evalAll, h]

/-- After a backslash, any character is taken for what it stands for there. -/
theorem escapeBody_run : (escapeBody.code .standard).run calls [] pos ('\\' :: d :: rest) =
    some (some (.string (Text.unescape d.toString), pos + 2, rest),
      Scope.insert [] "c" (.string d.toString)) := by
  have hfirst : Scan.literal "\\" pos ('\\' :: d :: rest) =
      some (.string "\\", pos + 1, d :: rest) := rfl
  have hvalue : Action.eval .standard (Scope.insert [] "c" (.string d.toString))
      (fn "unescape" [val "c"]) = .ok (.string (Text.unescape d.toString)) := rfl
  simp only [yields, List.cons_append, List.nil_append, Expr.code, Expr.codeSequence, hfirst,
    charIf, if_true, hvalue]

/-- Nothing else is an escape. -/
theorem escapeBody_run_of_ne (hc : c ≠ '\\') :
    (escapeBody.code .standard).run calls [] pos (c :: rest) = some (none, []) := by
  have hfirst : Scan.literal "\\" pos (c :: rest) = none := by
    simp [Scan.literal, after?, Ne.symm hc]
  simp only [yields, List.cons_append, List.nil_append, Expr.code, Expr.codeSequence, hfirst]

/-- An escape is taken for what it stands for. -/
theorem dqCharBody_run_escape {x : Value × Nat × List Char}
    (h : calls "escape" [] pos cs = some (some x)) :
    (dqCharBody.code .standard).run calls [] pos cs = some (some x, []) := by
  simp only [Expr.code, Expr.codeChoice, app_run "escape" h]

/-- Any other character but a quote is taken for itself. -/
theorem dqCharBody_run_plain (h : calls "escape" [] pos (c :: rest) = some none) (hc : c ≠ '"') :
    (dqCharBody.code .standard).run calls [] pos (c :: rest) =
      some (some (.string c.toString, pos + 1, rest), []) := by
  have hfirst : Scan.literal "\"" pos (c :: rest) = none := by
    simp [Scan.literal, after?, Ne.symm hc]
  simp only [Expr.code, Expr.codeChoice, Expr.codeSequence, Expr.not, app_run "escape" h, hfirst,
    if_true, charIf]

/-- A quote is not taken. -/
theorem dqCharBody_run_quote (h : calls "escape" [] pos ('"' :: rest) = some none) :
    (dqCharBody.code .standard).run calls [] pos ('"' :: rest) = some (none, []) := by
  have hfirst : Scan.literal "\"" pos ('"' :: rest) = some (.string "\"", pos + 1, rest) := rfl
  simp only [Expr.code, Expr.codeChoice, Expr.codeSequence, Expr.not, app_run "escape" h, hfirst,
    if_true]

/-- **The name `dqChar` takes exactly what one character is written as**, and no quote. -/
structure TakesChars (calls : Calls) : Prop where
  char (c : Char) (pos : Nat) (rest : List Char) :
    calls "dqChar" [] pos (Text.escapeChar c ++ rest) =
      some (some (.string c.toString, pos + (Text.escapeChar c).length, rest))
  quote (pos : Nat) (rest : List Char) : calls "dqChar" [] pos ('"' :: rest) = some none

/-- A scan of the notation does, two rules deep. -/
theorem scan_takesChars (depth : Nat) : TakesChars (scan .standard grammar (depth + 2)) where
  char c pos rest := by
    obtain ⟨d, hwritten, hmeant⟩ | ⟨hwritten, hslash, hquote⟩ := Text.unescape_escapeChar c
    · rw [hwritten, ← hmeant]
      exact scan_rule rule?_dqChar (dqCharBody_run_escape (scan_rule rule?_escape escapeBody_run))
    · rw [hwritten]
      exact scan_rule rule?_dqChar
        (dqCharBody_run_plain (scan_rule rule?_escape (escapeBody_run_of_ne hslash)) hquote)
  quote pos rest :=
    scan_rule rule?_dqChar
      (dqCharBody_run_quote (scan_rule rule?_escape (escapeBody_run_of_ne (by decide))))

/-- **Rounds of `dqChar` take an escaped text** and end at the closing quote. -/
theorem rounds_dqChar (h : TakesChars calls) (scope : Scope) (after : List Char) :
    ∀ (text : List Char) (taken : List Value) (pos : Nat),
      rounds (((Expr.app "dqChar").code .standard).run calls) 0 none (text.length + 1) taken scope
          pos (text.flatMap Text.escapeChar ++ '"' :: after) =
        some (some (.list (taken.reverse ++ text.map fun c => .string c.toString),
          pos + (text.flatMap Text.escapeChar).length, '"' :: after), scope)
  | [], taken, pos => by
    simp [rounds, app_run "dqChar" (h.quote pos after), repetition, repeatValue]
  | c :: text, taken, pos => by
    have hsome : 0 < (Text.escapeChar c).length := by
      obtain ⟨d, h, -⟩ | ⟨h, -⟩ := Text.unescape_escapeChar c <;> simp [h]
    rw [List.flatMap_cons, List.append_assoc, List.length_cons, rounds]
    simp only [Option.any_none, Bool.false_eq_true, if_false, app_run "dqChar" (h.char c pos _),
      Nat.lt_add_right_iff_pos, hsome, if_true]
    rw [rounds_dqChar h scope after text]
    simp [Nat.add_assoc]

/-! ### Strings -/

section

variable {φ : Type} [Account φ] {chars : Array Char} {f : Frame}

/-- **The body of `dqString` reads an escaped text in quotes.** The text may be longer than a scan
follows a repetition, so the items are taken one by one. -/
theorem dqStringBody_eval {apply : Applier φ} {g o : Grammar} (hf : f.input = .text chars)
    (hcalls : calls.Faithful chars f g apply) (htakes : TakesChars calls) (text after : List Char)
    (h : Left chars pos ('"' :: (text.flatMap Text.escapeChar ++ '"' :: after)))
    (st : State φ) (hp : st.pos = pos) :
    ∃ v scope st', dqStringBody.eval apply .standard { frame := f, dispatch := g, owner := o } []
        st = .ok { value := v, scope, state := st' } ∧
      Told chars pos (some (.string (String.ofList text),
        pos + (text.flatMap Text.escapeChar).length + 2, after)) v st'.pos := by
  -- the three items of the body that take something from the text
  obtain ⟨v₁, st₁, hopen, rfl, hp₁, h₁⟩ := literal_told hf h "\"" hp
  obtain ⟨v₂, st₂, hmany, rfl, hp₂, h₂⟩ := repeat_faithful hf
    (Expr.code_faithful (.app "dqChar")
      { frame := f, dispatch := g, owner := o, sequenceStart := some st.pos } hf hcalls)
    0 none (text.length + 1) h₁ (rounds_dqChar htakes [] after text [] _) st₁ hp₁
  obtain ⟨v₃, st₃, hclose, rfl, hp₃, h₃⟩ := literal_told hf h₂ "\"" hp₂
  have hjoin : Action.eval .standard
      (Scope.insert [] "cs" (.list (text.map fun c => .string c.toString)))
      (fn "join" [val "cs"]) = .ok (.string (String.ofList text)) :=
    congrArg Except.ok (Native.joined_chars text)
  have hstop : pos + 1 + (text.flatMap Text.escapeChar).length + 1 =
      pos + (text.flatMap Text.escapeChar).length + 2 := by omega
  refine ⟨some (.string (String.ofList text)),
    Scope.insert [] "cs" (.list (text.map fun c => .string c.toString)), st₃, ?_, rfl,
    hp₃.trans hstop, hstop ▸ h₃⟩
  rw [dqStringBody, yields, Expr.eval]
  simp only [List.cons_append, List.nil_append, Expr.evalSequence, Expr.eval, Expr.many,
    Reply.ofAnswer, bind, Except.bind, pure, Except.pure, hopen, hmany, List.reverse_nil, hclose,
    hjoin]
  rfl

/-- **The rule `dqString` reads an escaped text in quotes**, from any place of a longer text. -/
theorem dqString_told (hf : f.input = .text chars) (depth limit : Nat) (text after : List Char)
    (h : Left chars pos ('"' :: (text.flatMap Text.escapeChar ++ '"' :: after)))
    (st : State φ) (hp : st.pos = pos) :
    ∃ v st', applyName (applyDepth direct .standard limit (depth + 3)) f grammar "dqString" [] st =
        .ok (v, st') ∧
      Told chars pos (some (.string (String.ofList text),
        pos + (text.flatMap Text.escapeChar).length + 2, after)) v st'.pos := by
  obtain ⟨v, scope, inside, hbody, htold⟩ := dqStringBody_eval (o := grammar) hf
    (scan_faithful hf .standard grammar limit (depth + 2)) (scan_takesChars depth) text after h
    { st with account := Account.empty } hp
  have hbody : (rule "dqString" dqStringBody).body.eval _ _ _ (.ofParams [] []) _ = _ := hbody
  obtain ⟨v, st', happly, htold⟩ := body_told hp hbody htold
  refine ⟨v, st', ?_, htold⟩
  unfold applyName
  rw [grammar_alone.target?_of_rule? rule?_dqString]
  exact happly

end

end Notation

/-- What a plain application at the start of a text comes to, the engine gives, with or without kept
results, if there are no NaNs in it. -/
theorem Engine.matchRule_of_told (e : Engine) (hb : e.registry.Blind) {g : Grammar}
    {rule source : String} {v : Value}
    {stop : Nat} {rest : List Char} {w : Option Value} {st : State Furthest}
    (happly : applyName (applyDepth direct e.registry e.options.maxDepth e.options.maxDepth)
      { input := .ofString source } g rule [] (.start Account.empty) = .ok (w, st))
    (htold : Scan.Told source.toList.toArray 0 (some (v, stop, rest)) w st.pos)
    (hv : v.equals v = true) :
    e.matchRule g rule (.ofString source) [] =
      .ok (.success v { input := .ofString source, pos := stop }) := by
  obtain ⟨rfl, rfl, -⟩ := htold
  have hdirect : e.runDirectly g rule (.ofString source) [] false =
      .ok (.success v { input := .ofString source, pos := st.pos }) := by
    unfold runDirectly
    rw [happly]
    rfl
  unfold matchRule
  rw [run_eq_of_runDirectly e hb hdirect hv]
  rfl

namespace Notation

/-- **What a text is escaped to is read back as that text**: the notation reads it between double
quotes, whatever follows, and stops right after the closing quote. -/
theorem dqString_escape (options : Options) (hdepth : 3 ≤ options.maxDepth) (s u : String) :
    Action.eval .standard [] (.call "escape" [.literal (.string s)]) =
        .ok (.string (Text.escape s)) ∧
      ({ options } : Engine).matchRule grammar "dqString"
          (.ofString ("\"" ++ Text.escape s ++ "\"" ++ u)) [] =
        .ok (.success (.string s)
          { input := .ofString ("\"" ++ Text.escape s ++ "\"" ++ u)
            pos := (Text.escape s).length + 2 }) := by
  obtain ⟨depth, hmax⟩ : ∃ depth, options.maxDepth = depth + 3 := ⟨options.maxDepth - 3, by omega⟩
  have htext : ("\"" ++ Text.escape s ++ "\"" ++ u).toList =
      '"' :: (s.toList.flatMap Text.escapeChar ++ '"' :: u.toList) := by
    simp [Text.escape]
  have hstop : 0 + (s.toList.flatMap Text.escapeChar).length + 2 = (Text.escape s).length + 2 := by
    simp [Text.escape]
  generalize "\"" ++ Text.escape s ++ "\"" ++ u = source at htext ⊢
  obtain ⟨v, st, happly, htold⟩ := dqString_told (φ := Furthest) (f := { input := .ofString source })
    rfl depth options.maxDepth s.toList u.toList (htext ▸ Scan.Left.start source.toList)
    (.start Account.empty) rfl
  rw [State.start, hstop, String.ofList_toList] at htold
  rw [← hmax] at happly
  exact ⟨rfl, Engine.matchRule_of_told _ Registry.standard_blind happly htold
    (by simp [Value.equals, Value.agree])⟩

/-- A quote, a newline, characters of several bytes and a backslash at the end, with nothing kept
and rules nested as deep as they may be. -/
theorem dqString_escape_quotes :
    3 ≤ ({ memoize := false, maxDepth := 3 } : Options).maxDepth ∧
      ({ options := { memoize := false, maxDepth := 3 } } : Engine).matchRule grammar "dqString"
          (.ofString ("\"" ++ Text.escape "é\"\n𝄞\\" ++ "\"" ++ "\" after")) [] =
        .ok (.success (.string "é\"\n𝄞\\")
          { input := .ofString ("\"" ++ Text.escape "é\"\n𝄞\\" ++ "\"" ++ "\" after")
            pos := 10 }) :=
  ⟨by decide, (dqString_escape { memoize := false, maxDepth := 3 } (by decide) "é\"\n𝄞\\"
    "\" after").2⟩

end Notation

end Packrat
