import Packrat.Proofs.Evaluation
import Packrat.Proofs.Lineage

/-!
# Runs that follow one another

The plainest coupling: two runs go through like states and come to the same, except where the second
ends in a way that is exempt.

* `Follows`: one computation comes to what another comes to.
* `Likeness.coupling`: likeness of accounts and of tables makes a coupling.
* `Rendering`: a correspondence of accounts that putting them together respects.
* `Coupling.grounded`: if the rules that grammars define are applied in step, so is everything.
* `Likeness.applyDepth_mono`: a greater depth changes only what was cut off.
-/

namespace Packrat

variable {φ ψ : Type}

/-- **The first computation follows the second**: it ends in the same error, or yields the same in a
state like the other's. Nothing is said where the second ends in an exempt way. -/
def Follows {α : Type} (exempt : Halt → Prop) (like : State φ → State ψ → Prop)
    (m : Except Halt (α × State φ)) : Except Halt (α × State ψ) → Prop
  | .error h => exempt h ∨ m = .error h
  | .ok (a, t) => ∃ s, m = .ok (a, s) ∧ like s t

namespace Follows

variable {α β : Type} {exempt : Halt → Prop} {like : State φ → State ψ → Prop}

theorem bind {like' : State φ → State ψ → Prop} {m : Except Halt (α × State φ)}
    {n : Except Halt (α × State ψ)} {j : α × State φ → Except Halt (β × State φ)}
    {k : α × State ψ → Except Halt (β × State ψ)} (h : Follows exempt like m n)
    (hjk : ∀ a s t, like s t → Follows exempt like' (j (a, s)) (k (a, t))) :
    Follows exempt like' (m >>= j) (n >>= k) := by
  cases n with
  | error e =>
    refine h.imp id fun hm => ?_
    rw [hm]
    rfl
  | ok r =>
    obtain ⟨s, rfl, hs⟩ := h
    exact hjk r.1 s r.2 hs

theorem mono {like' : State φ → State ψ → Prop} {m : Except Halt (α × State φ)}
    {n : Except Halt (α × State ψ)} (h : Follows exempt like m n)
    (hl : ∀ s t, like s t → like' s t) : Follows exempt like' m n := by
  cases n with
  | error e => exact h
  | ok r =>
    obtain ⟨s, hm, hs⟩ := h
    exact ⟨s, hm, hl _ _ hs⟩

theorem trans {χ : Type} {like' : State ψ → State χ → Prop} {m : Except Halt (α × State φ)}
    {n : Except Halt (α × State ψ)} {p : Except Halt (α × State χ)}
    (h : Follows exempt like m n) (h' : Follows exempt like' n p) :
    Follows exempt (fun s u => ∃ t, like s t ∧ like' t u) m p := by
  cases p with
  | error e =>
    refine h'.elim .inl fun hn => ?_
    rw [hn] at h
    exact h
  | ok r =>
    obtain ⟨t, rfl, ht⟩ := h'
    obtain ⟨s, hm, hs⟩ := h
    exact ⟨s, hm, t, hs, ht⟩

end Follows

variable [Account φ] [Account ψ]

/-- **A likeness** of accounts, which putting them together respects, and of the tables of a
frame. -/
structure Likeness (φ ψ : Type) [Account φ] [Account ψ] where
  accounts : φ → ψ → Prop
  tables : Frame → Memo φ → Memo ψ → Prop
  exempt : Halt → Prop
  empty : accounts Account.empty Account.empty
  miss {f : Frame} {p : Nat} {label : String} :
    accounts (Account.miss f p label) (Account.miss f p label)
  append {a b : φ} {a' b' : ψ} : accounts a a' → accounts b b' →
    accounts (Account.append a b) (Account.append a' b')
  negation {a : φ} {a' : ψ} : accounts a a' →
    accounts (Account.ofNegation a) (Account.ofNegation a')
  fresh {f : Frame} : tables f .empty .empty

namespace Likeness

variable (L : Likeness φ ψ)

/-- Like states: the same position, like tables and like accounts. -/
structure Like (f : Frame) (s : State φ) (t : State ψ) : Prop where
  pos : s.pos = t.pos
  tables : L.tables f s.memo t.memo
  accounts : L.accounts s.account t.account

/-- **Likeness is a coupling.** -/
def coupling : Coupling φ ψ where
  rel f s t m n := L.Like f s t → Follows L.exempt (L.Like f) m n
  halts _ := True
  at_pos h hl := h hl.pos hl
  halt _ _ := .inr rfl
  move hl := ⟨_, rfl, rfl, hl.tables, hl.accounts⟩
  expect hl := ⟨_, rfl, hl.pos, hl.tables, L.append hl.accounts L.miss⟩
  bind h hjk hl := (h hl).bind fun a s t hst => hjk a s t hst
  negated h hl := (h ⟨hl.pos, hl.tables, L.empty⟩).bind fun _ _ _ hst =>
    ⟨_, rfl, hst.pos, hst.tables, L.append hl.accounts (L.negation hst.accounts)⟩
  nested _ h hl := (h ⟨rfl, L.fresh, hl.accounts⟩).bind fun _ _ _ hst =>
    ⟨_, rfl, hl.pos, hl.tables, hst.accounts⟩

end Likeness

/-- Runs that keep the very same accounts are alike as far as their tables are. -/
def Likeness.ofTables (exempt : Halt → Prop) (tables : Frame → Memo φ → Memo φ → Prop)
    (fresh : ∀ {f : Frame}, tables f .empty .empty) : Likeness φ φ where
  accounts := Eq
  tables
  exempt
  empty := rfl
  miss := rfl
  append := by rintro _ _ _ _ rfl rfl; rfl
  negation := by rintro _ _ rfl; rfl
  fresh

/-! ### Accounts that correspond -/

/-- **A correspondence of accounts** that putting accounts together respects. -/
structure Rendering (φ ψ : Type) [Account φ] [Account ψ] where
  accounts : φ → ψ → Prop
  empty : accounts Account.empty Account.empty
  miss {f : Frame} {p : Nat} {label : String} :
    accounts (Account.miss f p label) (Account.miss f p label)
  append {a b : φ} {a' b' : ψ} : accounts a a' → accounts b b' →
    accounts (Account.append a b) (Account.append a' b')
  rule {f : Frame} {rule : String} {start : Nat} {failed : Bool} {a : φ} {a' : ψ} :
    accounts a a' →
      accounts (Account.ofRule f rule start failed a) (Account.ofRule f rule start failed a')
  negation {a : φ} {a' : ψ} : accounts a a' →
    accounts (Account.ofNegation a) (Account.ofNegation a')

/-- Accounts that correspond if they are the same. -/
def Rendering.same (φ : Type) [Account φ] : Rendering φ φ where
  accounts := Eq
  empty := rfl
  miss := rfl
  append := by rintro _ _ _ _ rfl rfl; rfl
  rule := by rintro _ _ _ _ _ _ rfl; rfl
  negation := by rintro _ _ rfl; rfl

/-! ### Grounded applications -/

/-- A rule is grounded if it is the one that its owner has under its name. -/
def Target.Grounded : Target → Prop
  | .rule o r => o.rule? r.name = some r
  | .builtin _ => True

/-- A rule found by its name is grounded. -/
theorem Grammar.resolve?_grounded {g o : Grammar} {name : String} {r : Rule}
    (h : g.resolve? name = some (o, r)) : (Target.rule o r).Grounded := by
  have hr := (resolve?_eq_some name g h).2
  show o.rule? r.name = some r
  rw [rule?_name hr]
  exact hr

/-- What a name means to a grammar is grounded. -/
theorem Grammar.target?_grounded {g : Grammar} {name : String} {t : Target}
    (h : g.target? name = some t) : t.Grounded := by
  unfold Grammar.target? at h
  cases hr : g.resolve? name with
  | none =>
    rw [hr] at h
    obtain ⟨b, -, rfl⟩ := Option.map_eq_some_iff.1 h
    trivial
  | some or =>
    rw [hr] at h
    cases h
    exact resolve?_grounded hr

/-- What an application means is grounded. -/
theorem Expr.application?_grounded {e : Expr} {d o g : Grammar} {as : List Action} {t : Target}
    (h : e.application? d o = some (as, .ok (g, t))) : t.Grounded := by
  cases e with
  | apply rule args =>
    simp only [application?, Option.some.injEq, Prod.mk.injEq] at h
    split at h
    next ht => cases h.2; exact Grammar.target?_grounded ht
    next => cases h.2
  | super rule args =>
    simp only [application?, Option.some.injEq, Prod.mk.injEq] at h
    split at h
    next ht =>
      cases h.2
      obtain ⟨p, -, hp⟩ := Option.bind_eq_some_iff.1 ht
      exact Grammar.target?_grounded hp
    next => cases h.2
  | foreign grammar rule args =>
    simp only [application?, Option.some.injEq, Prod.mk.injEq] at h
    split at h
    next =>
      split at h
      next ht => cases h.2; exact Grammar.target?_grounded ht
      next => cases h.2
    next => cases h.2
  | _ => simp [application?] at h

namespace Coupling

variable {C : Coupling φ ψ} {one : Applier φ} {two : Applier ψ}

/-- The rules that grammars define are applied in step. -/
def InStep (C : Coupling φ ψ) (one : Applier φ) (two : Applier ψ) : Prop :=
  ∀ (f : Frame) (d o : Grammar) (r : Rule) (args : List Value) (s : State φ) (t : State ψ),
    o.rule? r.name = some r → C.rel f s t (one f d o r args s) (two f d o r args t)

/-- Rules applied in step are all that a coupling needs which says nothing against any halt. -/
theorem grounded (registry : Registry) (hh : ∀ h, C.halts h) (hr : C.InStep one two) :
    C.Calling registry one two fun _ target _ => target.Grounded where
  count _ _ := hh _
  type := hh _
  action _ := hh _
  loop := hh _
  rule hg _ := hr _ _ _ _ _ _ _ hg
  dynamic _ ht := Grammar.target?_grounded ht
  spaces _ hs := Grammar.resolve?_grounded hs

/-- The applications in an expression are grounded. -/
theorem permitted_grounded (hh : ∀ h, C.halts h) (d o : Grammar) (es : List Expr) :
    C.Permitted (fun _ target _ => target.Grounded) d o es := by
  intro e _ as meaning hm
  cases meaning with
  | error c => exact hh _
  | ok gt => exact fun _ _ => Expr.application?_grounded hm

/-- **The body of a rule runs in step**, if the rules that grammars define are applied in step. -/
theorem runBody_of_rules (registry : Registry) (hh : ∀ h, C.halts h) (hr : C.InStep one two)
    (f : Frame) (d o : Grammar) (rule : Rule) (args : List Value) (s : State φ) (t : State ψ) :
    C.rel f s t (runBody one registry f d o rule args s)
      (runBody two registry f d o rule args t) :=
  (grounded registry hh hr).runBody (permitted_grounded hh d o _)

/-- **A name is applied in step**, if the rules that grammars define are applied in step. -/
theorem applyName_of_rules (hh : ∀ h, C.halts h) (hr : C.InStep one two) (f : Frame) (g : Grammar)
    (name : String) (args : List Value) (s : State φ) (t : State ψ) :
    C.rel f s t (applyName one f g name args s) (applyName two f g name args t) := by
  unfold applyName
  cases ht : g.target? name with
  | none => exact C.halt (hh _)
  | some target =>
    exact (grounded {} hh hr).target (Grammar.target?_grounded ht)

end Coupling

/-- **Depth only cuts off.** Two strategies may be in step whenever the bodies are. Then an
application that keeps within a depth is in step with the same one at any greater depth. -/
theorem Likeness.applyDepth_mono (L : Likeness φ ψ) (registry : Registry) (limit limit' : Nat)
    (hx : ∀ limit, L.exempt (.fatal (.recursionLimit limit))) {one : Strategy φ} {two : Strategy ψ}
    (hstep : ∀ (f : Frame) (call : Call) (body : Attempt φ) (body' : Attempt ψ) (s : State φ)
      (t : State ψ), (∀ s t, L.Like f s t → Follows L.exempt (L.Like f) (body s) (body' t)) →
        L.Like f s t → Follows L.exempt (L.Like f) (one f call body s) (two f call body' t))
    {n m : Nat} (h : n ≤ m) :
    L.coupling.InStep (applyDepth one registry limit m) (applyDepth two registry limit' n) := by
  induction n generalizing m with
  | zero => exact fun _ _ _ _ _ _ _ _ _ => .inl (hx _)
  | succ n ih =>
    obtain ⟨m, rfl⟩ : ∃ m', m = m' + 1 := ⟨m - 1, by omega⟩
    intro f d o r args s t _ hl
    -- the bodies run one level further down
    refine hstep f _ _ _ s t (fun s' t' hl' => ?_) hl
    exact Coupling.runBody_of_rules registry (fun _ => trivial) (ih (m := m) (by omega)) f d o r args
      s' t' hl'

end Packrat
