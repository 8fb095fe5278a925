import Packrat.Proofs.Failing
import Packrat.Proofs.Scopes

/-!
# Values that differ in the bits of NaNs

A table files an application under the signatures of its arguments, so two applications share an
entry if their arguments differ in nothing but the bits of NaNs. That does no harm as long as nobody
can tell the two apart. What is built in cannot: a NaN is written in one way only and equals nothing.
A function that actions call might look at the bits, so of these it has to be asked.

* `Value.Alike`: values of one signature.
* `Native.Blind`, `Registry.Blind`: functions that take such values to such values.
* `Registry.standard_blind`: the standard functions do.
* `Action.eval_alike`: then actions do.
-/

namespace Packrat

/-! ### Signatures -/

namespace Number

@[simp] theorem isNaN_signature (n : Number) : n.signature.isNaN = n.isNaN := by
  unfold signature
  split
  next h => rw [h]; rfl
  next => rfl

theorem signature_of_isNaN {n : Number} (h : n.isNaN = true) : n.signature = nan := by
  rw [signature, h]
  rfl

theorem signature_of_not_isNaN {n : Number} (h : n.isNaN = false) : n.signature = n := by
  rw [signature, h]
  rfl

@[simp] theorem signature_signature (n : Number) : n.signature.signature = n.signature := by
  cases h : n.isNaN with
  | true => rw [signature_of_isNaN h]; rfl
  | false => rw [signature_of_not_isNaN h, signature_of_not_isNaN h]

@[simp] theorem equals_signature (m n : Number) : m.signature.equals n.signature = m.equals n := by
  unfold equals
  rw [isNaN_signature, isNaN_signature]
  cases hm : m.isNaN with
  | true => rfl
  | false =>
    cases hn : n.isNaN with
    | true => rfl
    | false => rw [signature_of_not_isNaN hm, signature_of_not_isNaN hn]

/-- A NaN stands for no integer. -/
theorem toInt?_of_isNaN {n : Number} (h : n.isNaN = true) : n.toInt? = none := by
  have hfinite : n.isFinite = false := by
    simp only [isNaN, isFinite, decide_eq_true_eq, decide_eq_false_iff_not] at h ⊢
    omega
  rw [toInt?, hfinite]
  rfl

@[simp] theorem toInt?_signature (n : Number) : n.signature.toInt? = n.toInt? := by
  cases h : n.isNaN with
  | true => rw [toInt?_of_isNaN h, toInt?_of_isNaN ((isNaN_signature n).trans h)]
  | false => rw [signature_of_not_isNaN h]

@[simp] theorem display_signature (n : Number) : n.signature.display = n.display := by
  cases h : n.isNaN with
  | true =>
    unfold display
    rw [toInt?_signature, isNaN_signature, toInt?_of_isNaN h, h]
    rfl
  | false => rw [signature_of_not_isNaN h]

end Number

namespace Value

mutual

@[simp] theorem signature_signature : ∀ v : Value, v.signature.signature = v.signature
  | nil | bool _ | string _ => rfl
  | number n => by rw [signature, signature, Number.signature_signature]
  | list items => by rw [signature, signature, signatures_signatures items]
  | node tag children => by rw [signature, signature, signatures_signatures children]

@[simp] theorem signatures_signatures : ∀ vs : List Value,
    signatures (signatures vs) = signatures vs
  | [] => rfl
  | v :: vs => by rw [signatures, signatures, signature_signature v, signatures_signatures vs]

end

theorem signatures_eq_map : ∀ vs : List Value, signatures vs = vs.map signature
  | [] => rfl
  | v :: vs => by rw [signatures, signatures_eq_map vs, List.map_cons]

@[simp] theorem length_signatures (vs : List Value) : (signatures vs).length = vs.length := by
  rw [signatures_eq_map, List.length_map]

@[simp] theorem isEmpty_signatures (vs : List Value) : (signatures vs).isEmpty = vs.isEmpty := by
  cases vs <;> rfl

@[simp] theorem signatures_append (vs ws : List Value) :
    signatures (vs ++ ws) = signatures vs ++ signatures ws := by
  simp only [signatures_eq_map, List.map_append]

@[simp] theorem head_signatures (vs : List Value) (v : Value) :
    ((signatures vs).head?.getD v).signature = (vs.head?.getD v).signature := by
  cases vs with
  | nil => rfl
  | cons w ws => exact signature_signature w

/-! ### What does not show the bits of NaNs -/

@[simp] theorem typeName_signature (v : Value) : v.signature.typeName = v.typeName := by
  cases v <;> rfl

@[simp] theorem isTruthy_signature (v : Value) : v.signature.isTruthy = v.isTruthy := by
  cases v <;> rfl

@[simp] theorem string?_signature (v : Value) : v.signature.string? = v.string? := by
  cases v <;> rfl

@[simp] theorem char?_signature (v : Value) : v.signature.char? = v.char? := by
  cases v <;> rfl

mutual

@[simp] theorem display_signature : ∀ v : Value, v.signature.display = v.display
  | nil | bool _ | string _ => rfl
  | number n => by rw [signature, display, display, Number.display_signature]
  | list items => by rw [signature, display, display, displayAll_signatures items]
  | node tag children => by rw [signature, display, display, displayAll_signatures children]

@[simp] theorem displayAll_signatures : ∀ vs : List Value,
    displayAll (signatures vs) = displayAll vs
  | [] => rfl
  | v :: vs => by
    rw [signatures, displayAll, displayAll, display_signature v, displayAll_signatures vs]

end

@[simp] theorem describe_signature (v : Value) : v.signature.describe = v.describe := by
  cases v with
  | number n => exact display_signature (number n)
  | list items => exact display_signature (list items)
  | _ => rfl

mutual

theorem agree_signature {same : Number → Number → Bool}
    (h : ∀ m n, same m.signature n.signature = same m n) : ∀ v w : Value,
    agree same v.signature w.signature = agree same v w
  | nil, w | bool _, w | string _, w => by cases w <;> rfl
  | number _, w => by cases w <;> simp [signature, agree, h]
  | list vs, w => by cases w <;> simp [signature, agree, agreeAll_signatures h vs]
  | node _ vs, w => by cases w <;> simp [signature, agree, agreeAll_signatures h vs]

theorem agreeAll_signatures {same : Number → Number → Bool}
    (h : ∀ m n, same m.signature n.signature = same m n) : ∀ vs ws : List Value,
    agreeAll same (signatures vs) (signatures ws) = agreeAll same vs ws
  | [], ws => by cases ws <;> rfl
  | v :: vs, ws => by
    cases ws with
    | nil => rfl
    | cons w ws =>
      rw [signatures, signatures, agreeAll, agreeAll, agree_signature h v w,
        agreeAll_signatures h vs ws]

end

@[simp] theorem equals_signature (v w : Value) : v.signature.equals w.signature = v.equals w :=
  agree_signature Number.equals_signature v w

/-- **Values that differ in the bits of NaNs only.** -/
def Alike (v w : Value) : Prop := v.signature = w.signature

/-- The values of two lists in turn. -/
def AlikeAll (vs ws : List Value) : Prop := signatures vs = signatures ws

theorem alikeAll_signatures (vs : List Value) : AlikeAll vs (signatures vs) :=
  (signatures_signatures vs).symm

mutual

/-- A value that equals itself holds no NaN, so it is its own signature. -/
theorem signature_of_equals : ∀ {v : Value}, v.equals v = true → v.signature = v
  | nil, _ | bool _, _ | string _, _ => rfl
  | number n, h => by
    have hn : n.isNaN = false := by
      have hself : n.equals n = true := h
      cases hn : n.isNaN with
      | false => rfl
      | true => rw [Number.equals, hn] at hself; cases hself
    rw [signature, Number.signature_of_not_isNaN hn]
  | list items, h => by rw [signature, signatures_of_agree h]
  | node tag children, h => by
    have hchildren : agreeAll Number.equals children children = true := by
      rw [equals, agree, Bool.and_eq_true] at h
      exact h.2
    rw [signature, signatures_of_agree hchildren]

theorem signatures_of_agree : ∀ {vs : List Value}, agreeAll Number.equals vs vs = true →
    signatures vs = vs
  | [], _ => rfl
  | v :: vs, h => by
    rw [agreeAll, Bool.and_eq_true] at h
    rw [signatures, signature_of_equals h.1, signatures_of_agree h.2]

end

/-- What is alike is the same, unless there are NaNs in it. -/
theorem Alike.eq {v w : Value} (h : v.Alike w) (hv : v.equals v = true) : v = w := by
  have hw : w.equals w = true := by
    rw [← equals_signature w w, ← show v.signature = w.signature from h, equals_signature]
    exact hv
  rw [← signature_of_equals hv, show v.signature = w.signature from h, signature_of_equals hw]

/-- Optional values that have one signature, if any. -/
theorem rel_alike_iff {v w : Option Value} :
    Option.Rel Alike v w ↔ v.map signature = w.map signature := by
  cases v <;> cases w <;> simp [Alike]

theorem rel_alike_symm {v w : Option Value} (h : Option.Rel Alike v w) : Option.Rel Alike w v :=
  rel_alike_iff.2 (rel_alike_iff.1 h).symm

theorem rel_alike_trans {u v w : Option Value} (h : Option.Rel Alike u v)
    (h' : Option.Rel Alike v w) : Option.Rel Alike u w :=
  rel_alike_iff.2 ((rel_alike_iff.1 h).trans (rel_alike_iff.1 h'))

theorem isSome_of_alike {v w : Option Value} (h : Option.Rel Alike v w) : v.isSome = w.isSome := by
  cases h <;> rfl

theorem isNone_of_alike {v w : Option Value} (h : Option.Rel Alike v w) : v.isNone = w.isNone := by
  cases h <;> rfl

/-- What can be seen of a signature is the same for values that are alike. -/
theorem Alike.congr {v w : Value} (h : v.Alike w) {α : Type} {g : Value → α}
    (hg : ∀ v : Value, g v.signature = g v) : g v = g w := by
  rw [← hg v, ← hg w, show v.signature = w.signature from h]

theorem AlikeAll.length {vs ws : List Value} (h : AlikeAll vs ws) : vs.length = ws.length := by
  rw [← length_signatures vs, ← length_signatures ws, show signatures vs = signatures ws from h]

theorem AlikeAll.cons {v w : Value} {vs ws : List Value} (h : v.Alike w) (hs : AlikeAll vs ws) :
    AlikeAll (v :: vs) (w :: ws) := by
  rw [AlikeAll, signatures, signatures, show v.signature = w.signature from h,
    show signatures vs = signatures ws from hs]

end Value

/-! ### Functions of actions -/

namespace Native

/-- **A function that is blind to the bits of NaNs**: arguments that differ in nothing else give
results that differ in nothing else, or the same error. -/
def Blind (f : Native) : Prop :=
  ∀ vs ws, Value.AlikeAll vs ws → Tracks False Value.Alike (f vs) (f ws)

/-- It is enough to look at signatures. -/
theorem blind_of_signatures {f : Native}
    (h : ∀ vs, (f (Value.signatures vs)).map Value.signature = (f vs).map Value.signature) :
    f.Blind := by
  intro vs ws hs
  have heq : (f vs).map Value.signature = (f ws).map Value.signature := by
    rw [← h vs, ← h ws, show Value.signatures vs = Value.signatures ws from hs]
  cases hv : f vs with
  | error c =>
    rw [hv] at heq
    cases hw : f ws with
    | error c' => rw [hw] at heq; cases heq; exact .inr rfl
    | ok w => rw [hw] at heq; cases heq
  | ok v =>
    rw [hv] at heq
    cases hw : f ws with
    | error c' => rw [hw] at heq; cases heq
    | ok w => rw [hw] at heq; exact ⟨w, rfl, Except.ok.inj heq⟩

@[simp] theorem asString_signature (v : Value) : asString v.signature = asString v := by
  cases v <;> rfl

@[simp] theorem asList_signature (v : Value) :
    asList v.signature = (asList v).map Value.signatures := by
  cases v <;> rfl

@[simp] theorem asNode_signature (v : Value) :
    asNode v.signature = (asNode v).map fun n => (n.1, Value.signatures n.2) := by
  cases v <;> rfl

@[simp] theorem asWidth_signature (v : Value) : asWidth v.signature = asWidth v := by
  cases v with
  | number n => simp only [Value.signature, asWidth, Number.toInt?_signature]
  | _ => rfl

@[simp] theorem joined_signatures (separator : String) (vs : List Value) :
    joined separator (Value.signatures vs) = joined separator vs := by
  rw [joined, joined, Value.displayAll_signatures]

theorem fill_signatures (cs : List Char) (vs : List Value) :
    Template.fill cs (Value.signatures vs) = Template.fill cs vs := by
  fun_induction Template.fill cs vs with
  | case6 c rest values h₁ h₂ h₃ h₄ ih =>
    -- no value is asked for here
    rw [Template.fill, ih]
    · exact h₁
    · exact h₂
    · intro tail hv
      cases values with
      | nil => exact h₃ tail rfl
      | cons => cases hv
    · intro tail v vs hv
      cases values with
      | nil => cases hv
      | cons w ws => exact h₄ tail w ws rfl
  | _ => simp_all [Template.fill, Value.signatures]

/-- Looking at the signature of a result comes to looking at it in each case. -/
@[simp] theorem map_map_signature {α : Type} (m : Except Cause α) (g : α → Value) :
    (g <$> m).map Value.signature = m.map fun a => (g a).signature := by
  cases m <;> rfl

@[simp] theorem map_bind_signature {α : Type} (m : Except Cause α) (k : α → Except Cause Value) :
    (m >>= k).map Value.signature = m >>= fun a => (k a).map Value.signature := by
  cases m <;> rfl

@[simp] theorem map_signature_map {α β γ : Type} (m : Except Cause α) (g : α → β) (h : β → γ) :
    (m.map g).map h = m.map fun a => h (g a) := by
  cases m <;> rfl

@[simp] theorem map_signature_bind {α β : Type} (m : Except Cause α) (g : α → β)
    (k : β → Except Cause Value) : m.map g >>= k = m >>= fun a => k (g a) := by
  cases m <;> rfl

open Value in
/-- The standard functions show the bits of NaNs in their results only. -/
theorem standard_signatures {name : String} {f : Native}
    (h : Registry.standard.get? name = some f) (vs : List Value) :
    (f (signatures vs)).map signature = (f vs).map signature := by
  have hm := standard_mem h
  simp only [List.mem_cons, List.not_mem_nil, or_false] at hm
  -- a wrong number of arguments is reported by the number
  rcases hm with rfl | rfl | rfl | rfl | rfl | rfl | rfl | rfl | rfl | rfl | rfl | rfl | rfl | rfl |
    rfl | rfl | rfl | rfl | rfl | rfl | rfl
  · simp [concat]
  · match vs with
    | [] | [_] | _ :: _ :: _ => simp [str, signatures, wrongCount]
  · match vs with
    | [] | [_] | [_, _] | _ :: _ :: _ :: _ => simp [join, signatures, wrongCount]
  · match vs with
    | [] | [_] | _ :: _ :: _ => simp [escape, signatures, wrongCount]
  · match vs with
    | [] | [_] | _ :: _ :: _ => simp [unescape, signatures, wrongCount]
  · match vs with
    | [] | _ :: _ :: _ => simp [toNumber, signatures, wrongCount]
    | [v] =>
      cases v <;> simp [toNumber, signatures, signature, wrongType, typeName, Except.map]
  · simp [Native.list, Except.map, signature]
  · match vs with
    | [] | [_] | [_, _] | _ :: _ :: _ :: _ => simp [cons, signatures, signature, wrongCount]
  · match vs with
    | [] | [_] | [_, _] | _ :: _ :: _ :: _ => simp [append, signatures, signature, wrongCount]
  · match vs with
    | [] | [_] | [_, _] | _ :: _ :: _ :: _ => simp [extend, signatures, signature, wrongCount]
  · match vs with
    | [] | [_] | _ :: _ :: _ => simp [first, signatures, wrongCount]
  · match vs with
    | [] | _ :: _ :: _ => simp [len, signatures, wrongCount]
    | [v] => cases v <;> simp [len, signatures, signature, wrongType, typeName]
  · match vs with
    | [] | _ :: _ :: _ => simp [isEmpty, signatures, wrongCount]
    | [v] => cases v <;> simp [isEmpty, signatures, signature, wrongType, typeName]
  · match vs with
    | [] => rfl
    | _ :: _ => simp [node, signatures, signature]
  · match vs with
    | [] | [_] | _ :: _ :: _ => simp [tag, signatures, wrongCount]
  · match vs with
    | [] | [_] | _ :: _ :: _ => simp [children, signatures, signature, wrongCount]
  · match vs with
    | [] | [_] | [_, _] | _ :: _ :: _ :: _ => simp [eq, signatures, wrongCount]
  · match vs with
    | [] | [_] | _ :: _ :: _ => simp [not, signatures, wrongCount]
  · match vs with
    | [] | [_] | [_, _] | _ :: _ :: _ :: _ => simp [indent, indent.indented, signatures, wrongCount]
  · match vs with
    | [] | [_] | _ :: _ :: _ => simp [lines, signatures, wrongCount]
  · match vs with
    | [] => rfl
    | _ :: _ => simp [template, signatures, wrongCount, fill_signatures]

end Native

/-- **Functions all of which are blind** to the bits of NaNs. -/
def Registry.Blind (r : Registry) : Prop := ∀ name f, r.get? name = some f → f.Blind

/-- **The standard functions are blind**, under whatever names. -/
theorem Registry.OfStandard.blind {r : Registry} (h : r.OfStandard) : r.Blind := by
  intro name f hf
  obtain ⟨origin, ho⟩ := h name f hf
  exact Native.blind_of_signatures (Native.standard_signatures ho)

theorem Registry.standard_blind : standard.Blind := standard_ofStandard.blind

/-! ### Scopes and actions -/

namespace Scope

/-- The scope with the signatures of the values. -/
def signature (s : Scope) : Scope := s.map fun entry => (entry.1, entry.2.signature)

/-- **Scopes that differ in the bits of NaNs only.** -/
def Alike (s s' : Scope) : Prop := s.signature = s'.signature

theorem Alike.refl (s : Scope) : s.Alike s := rfl

theorem get?_signature (s : Scope) (x : String) :
    s.signature.get? x = (s.get? x).map Value.signature := by
  induction s with
  | nil => rfl
  | cons entry rest ih =>
    obtain ⟨y, v⟩ := entry
    unfold signature get? at ih ⊢
    rw [List.map_cons, List.lookup_cons, List.lookup_cons]
    cases x == y with
    | true => rfl
    | false => exact ih

theorem Alike.get? {s s' : Scope} (h : s.Alike s') (x : String) :
    Option.Rel Value.Alike (s.get? x) (s'.get? x) := by
  rw [Value.rel_alike_iff, ← get?_signature, ← get?_signature,
    show s.signature = s'.signature from h]

theorem signature_insert (s : Scope) (name : String) (v : Value) :
    (s.insert name v).signature = s.signature.insert name v.signature := by
  unfold insert signature
  rw [List.map_cons, List.filter_map]
  rfl

theorem Alike.insert {s s' : Scope} {v w : Value} (h : s.Alike s') (hv : v.Alike w)
    (name : String) : (s.insert name v).Alike (s'.insert name w) := by
  rw [Alike, signature_insert, signature_insert, show s.signature = s'.signature from h,
    show v.signature = w.signature from hv]

/-- A rule starts in scopes that are alike, if its arguments are. -/
theorem ofParams_alike {params : List String} {args args' : List Value}
    (h : Value.AlikeAll args args') : (ofParams params args).Alike (ofParams params args') := by
  suffices hfold : ∀ (params : List String) (args args' : List Value) (s s' : Scope),
      Value.AlikeAll args args' → s.Alike s' →
        Alike ((params.zip args).foldl (fun s entry => s.insert entry.1 entry.2) s)
          ((params.zip args').foldl (fun s entry => s.insert entry.1 entry.2) s') from
    hfold params args args' [] [] h (.refl _)
  intro params
  induction params with
  | nil => exact fun _ _ _ _ _ hs => hs
  | cons name params ih =>
    intro args args' s s' h hs
    cases args with
    | nil =>
      cases args' with
      | nil => exact hs
      | cons w ws => cases h
    | cons v vs =>
      cases args' with
      | nil => cases h
      | cons w ws =>
        obtain ⟨hv, hvs⟩ := List.cons.inj h
        exact ih vs ws _ _ hvs (hs.insert hv name)

end Scope

namespace Action

variable {registry : Registry} {s s' : Scope}

mutual

/-- **Actions do not tell NaNs apart**, if the functions that they call do not. -/
theorem eval_alike (hb : registry.Blind) (hs : s.Alike s') : ∀ a : Action,
    Tracks False Value.Alike (eval registry s a) (eval registry s' a)
  | literal v => ⟨v, by rw [eval], rfl⟩
  | var name => by
    rw [eval, eval]
    have hget := hs.get? name
    generalize s.get? name = v, s'.get? name = w at hget
    cases hget with
    | none => exact .inr rfl
    | some h => exact ⟨_, rfl, h⟩
  | list items => by
    rw [eval, eval]
    refine (evalAll_alike hb hs items).bind fun vs ws hvs => ⟨_, rfl, ?_⟩
    exact congrArg Value.list hvs
  | node tag args => by
    rw [eval, eval]
    refine (evalAll_alike hb hs args).bind fun vs ws hvs => ⟨_, rfl, ?_⟩
    exact congrArg (Value.node tag) hvs
  | call func args => by
    rw [eval, eval]
    cases hf : registry.get? func with
    | none => exact .inr rfl
    | some f => exact (evalAll_alike hb hs args).bind fun vs ws hvs => hb func f hf vs ws hvs

theorem evalAll_alike (hb : registry.Blind) (hs : s.Alike s') : ∀ as : List Action,
    Tracks False Value.AlikeAll (evalAll registry s as) (evalAll registry s' as)
  | [] => ⟨_, by rw [evalAll], rfl⟩
  | a :: as => by
    rw [evalAll, evalAll]
    refine (eval_alike hb hs a).bind fun v w hv => ?_
    exact (evalAll_alike hb hs as).bind fun vs ws hvs => ⟨_, rfl, .cons hv hvs⟩

end

end Action

end Packrat
