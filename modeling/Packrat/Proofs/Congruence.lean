import Packrat.Proofs.Evaluation

/-!
# Evaluation is up to the leaves

An expression that is put together from others only passes on what these come to. So two matches
that agree on the single elements and the applications in an expression agree on the expression,
though they may apply rules in different ways, on behalf of different grammars, or in different
frames.

* `Expr.isLeaf`: an expression that is not put together from others.
* `Leafwise`: contexts in which the leaves of some expressions come to the same.
* `Leafwise.eval`: then each expression does.
* `eval_application_congr`: applications come to the same if what they mean does.
* `Standing`: names that stand for one another.
* `Standing.target`: what they mean is applied alike.
-/

namespace Packrat

namespace Expr

/-- An expression that is not put together from others. -/
def isLeaf : Expr → Bool
  | sequence _ | choice _ | repeated _ _ _ | lookahead _ _ | bind _ _ | nested _ | capture _ => false
  | _ => true

end Expr

variable {φ : Type} [Account φ] {apply apply' : Applier φ} {registry : Registry}
  {R : Context → Context → Prop} {c c' : Context}

/-- **Contexts in which the leaves of some expressions come to the same.** The contexts are related
wherever a leaf may be evaluated: in any running sequence, and if the contents of elements are
matched, in any frame. -/
structure Leafwise (apply apply' : Applier φ) (registry : Registry) (R : Context → Context → Prop)
    (es : List Expr) : Prop where
  leaf {e : Expr} {c c' : Context} : e ∈ es → e.isLeaf = true → R c c' →
    e.eval apply registry c = e.eval apply' registry c'
  sequence {c c' : Context} (p : Nat) : R c c' →
    R { c with sequenceStart := some p } { c' with sequenceStart := some p }
  size {c c' : Context} : R c c' → c.frame.input.size = c'.frame.input.size
  capture {body : Expr} {c c' : Context} : .capture body ∈ es → R c c' → c.frame = c'.frame
  nested {body : Expr} {c c' : Context} : .nested body ∈ es → R c c' → c.frame = c'.frame ∧
    ∀ f, R { c with frame := f, sequenceStart := none } { c' with frame := f, sequenceStart := none }

namespace Leafwise

theorem mono {es fs : List Expr} (H : Leafwise apply apply' registry R es) (h : fs ⊆ es) :
    Leafwise apply apply' registry R fs where
  leaf he := H.leaf (h he)
  sequence := H.sequence
  size := H.size
  capture he := H.capture (h he)
  nested he := H.nested (h he)

theorem inside {e : Expr} {es : List Expr} (H : Leafwise apply apply' registry R (e :: es)) :
    Leafwise apply apply' registry R es := H.mono (List.subset_cons_self _ _)

theorem left {es fs : List Expr} (H : Leafwise apply apply' registry R (es ++ fs)) :
    Leafwise apply apply' registry R es := H.mono (List.subset_append_left _ _)

theorem right {es fs : List Expr} (H : Leafwise apply apply' registry R (es ++ fs)) :
    Leafwise apply apply' registry R fs := H.mono (List.subset_append_right _ _)

mutual

/-- **An expression comes to the same in two matches** in which its leaves do. -/
theorem eval : ∀ (e : Expr) {c c' : Context}, Leafwise apply apply' registry R e.subexprs →
    R c c' → e.eval apply registry c = e.eval apply' registry c'
  | .any, _, _, H, h => H.leaf (.head _) rfl h
  | .terminal _, _, _, H, h => H.leaf (.head _) rfl h
  | .literal _, _, _, H, h => H.leaf (.head _) rfl h
  | .range _ _, _, _, H, h => H.leaf (.head _) rfl h
  | .sequence items, c, c', H, h => by
    funext scope st
    rw [Expr.eval, Expr.eval, evalSequence items H.inside (H.sequence st.pos h)]
  | .choice alternatives, c, c', H, h => by
    funext scope st
    rw [Expr.eval, Expr.eval, evalChoice alternatives H.inside h]
  | .repeated body min max, c, c', H, h => by
    funext scope st
    rw [Expr.eval, Expr.eval, eval body H.inside h, H.size h]
  | .lookahead negated body, c, c', H, h => by
    funext scope st
    rw [Expr.eval, Expr.eval, eval body H.inside h]
  | .apply _ _, _, _, H, h => H.leaf (.head _) rfl h
  | .super _ _, _, _, H, h => H.leaf (.head _) rfl h
  | .foreign _ _ _, _, _, H, h => H.leaf (.head _) rfl h
  | .bind name body, c, c', H, h => by
    funext scope st
    rw [Expr.eval, Expr.eval, eval body H.inside h]
  | .action _, _, _, H, h => H.leaf (.head _) rfl h
  | .guard _, _, _, H, h => H.leaf (.head _) rfl h
  | .nested body, c, c', H, h => by
    obtain ⟨hf, hin⟩ := H.nested (.head _) h
    have ih (inner : Frame) := eval body H.inside (hin inner)
    funext scope st
    rw [Expr.eval, Expr.eval, hf]
    simp only [ih]
  | .capture body, c, c', H, h => by
    funext scope st
    rw [Expr.eval, Expr.eval, eval body H.inside h, H.capture (.head _) h]

theorem evalSequence : ∀ (es : List Expr) {c c' : Context},
    Leafwise apply apply' registry R (Expr.subexprsAll es) → R c c' →
      Expr.evalSequence apply registry es c = Expr.evalSequence apply' registry es c'
  | [], _, _, _, _ => by
    funext last scope st
    rw [Expr.evalSequence, Expr.evalSequence]
  | e :: es, c, c', H, h => by
    funext last scope st
    rw [Expr.evalSequence, Expr.evalSequence, eval e H.left h, evalSequence es H.right h]

theorem evalChoice : ∀ (es : List Expr) {c c' : Context},
    Leafwise apply apply' registry R (Expr.subexprsAll es) → R c c' →
      Expr.evalChoice apply registry es c = Expr.evalChoice apply' registry es c'
  | [], _, _, _, _ => by
    funext scope st
    rw [Expr.evalChoice, Expr.evalChoice]
  | e :: es, c, c', H, h => by
    funext scope st
    rw [Expr.evalChoice, Expr.evalChoice, eval e H.left h, evalChoice es H.right h]

end

end Leafwise

/-! ### Applications -/

/-- What two applications mean comes to the same on the same arguments. -/
def SameMeaning (apply apply' : Applier φ) (f f' : Frame) (args : List Value) :
    Except Cause (Grammar × Target) → Except Cause (Grammar × Target) → Prop
  | .ok (g, t), .ok (g', t') => applyTarget apply f g t args = applyTarget apply' f' g' t' args
  | .error c, .error c' => c = c'
  | _, _ => False

/-- **Applications come to the same** if what they mean does on the values of their arguments. -/
theorem eval_application_congr {e e' : Expr} {as : List Action}
    {meaning meaning' : Except Cause (Grammar × Target)}
    (he : e.application? c.dispatch c.owner = some (as, meaning))
    (he' : e'.application? c'.dispatch c'.owner = some (as, meaning'))
    (h : ∀ scope args, Action.evalAll registry scope as = .ok args →
      SameMeaning apply apply' c.frame c'.frame args meaning meaning') :
    e.eval apply registry c = e'.eval apply' registry c' := by
  funext scope st
  rw [Expr.eval_application he, Expr.eval_application he']
  cases hv : Action.evalAll registry scope as with
  | error cause => rfl
  | ok args =>
    have hm := h scope args hv
    match meaning, meaning', hm with
    | .ok (g, t), .ok (g', t'), hm =>
      show (applyTarget apply c.frame g t args st >>= _) =
        (applyTarget apply' c'.frame g' t' args st >>= _)
      rw [show applyTarget apply c.frame g t args = _ from hm]
    | .error _, .error _, hm => rw [show _ = _ from hm]

/-- **Names that stand for one another** to two grammars: what they mean is a rule in both or the
same built-in rule, and so for the names that a built-in rule applies in turn. -/
structure Standing (apply apply' : Applier φ) (f : Frame) (d d' : Grammar)
    (same : Target → Target → Prop) : Prop where
  count {t t' : Target} (args : List Value) : same t t' → t.checkCount args = t'.checkCount args
  rule {o : Grammar} {r : Rule} {t' : Target} (args : List Value) : same (.rule o r) t' →
    ∃ o' r', t' = .rule o' r' ∧ apply f d o r args = apply' f d' o' r' args
  builtin {b : Builtin} {t' : Target} : same (.builtin b) t' → t' = .builtin b
  dynamic {t' : Target} (name : String) : same (.builtin .apply) t' →
    Option.Rel same (d.target? name) (d'.target? name)
  spaces {t' : Target} : same (.builtin .token) t' →
    Option.Rel (fun x y => same (.rule x.1 x.2) (.rule y.1 y.2)) (d.resolve? "spaces")
      (d'.resolve? "spaces")

namespace Standing

variable {f : Frame} {d d' : Grammar} {same : Target → Target → Prop} {t t' : Target}

theorem token (S : Standing apply apply' f d d' same) (h : same (.builtin .token) t') (v : Value) :
    applyToken apply f d v = applyToken apply' f d' v := by
  have hs : applySpaces apply f d = applySpaces apply' f d' := by
    funext st
    unfold applySpaces
    generalize d.resolve? "spaces" = a, d'.resolve? "spaces" = b, S.spaces h = hab
    cases hab with
    | none => rfl
    | some hxy =>
      obtain ⟨o', r', he, hr⟩ := S.rule [] hxy
      cases he
      simp only [S.count [] hxy, hr]
  funext st
  unfold applyToken
  rw [hs]

theorem applyBuiltin (S : Standing apply apply' f d d' same) {b : Builtin}
    (h : same (.builtin b) t') (args : List Value) :
    Packrat.applyBuiltin apply f d b args = Packrat.applyBuiltin apply' f d' b args := by
  cases b with
  | token => exact S.token h _
  | _ => rfl

/-- **What names mean that stand for one another is applied alike.** -/
theorem target (S : Standing apply apply' f d d' same) (h : same t t') (args : List Value) :
    applyTarget apply f d t args = applyTarget apply' f d' t' args := by
  -- `apply` takes the name of a rule off its arguments, so what it applies has fewer of them
  induction args generalizing t t' with
  | nil =>
    funext st
    unfold applyTarget
    rw [S.count [] h]
    cases t with
    | rule o r =>
      obtain ⟨o', r', rfl, hr⟩ := S.rule [] h
      exact congrArg _ (funext fun _ => congrFun hr st)
    | builtin b =>
      cases S.builtin h
      cases b <;> simp only [S.applyBuiltin h]
  | cons v rest ih =>
    funext st
    unfold applyTarget
    rw [S.count _ h]
    cases t with
    | rule o r =>
      obtain ⟨o', r', rfl, hr⟩ := S.rule (v :: rest) h
      exact congrArg _ (funext fun _ => congrFun hr st)
    | builtin b =>
      cases S.builtin h
      congr 1
      funext _
      split
      next => contradiction
      next name rest' h1 h2 =>
        cases h1
        cases h2
        generalize d.target? name = a, d'.target? name = b, S.dynamic name h = hab
        cases hab with
        | none => rfl
        | some htt => exact congrFun (ih htt) st
      next h1 _ =>
        cases h1
        exact congrFun (S.applyBuiltin h _) st

end Standing

end Packrat
