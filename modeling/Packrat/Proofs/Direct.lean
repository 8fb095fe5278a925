import Packrat.Proofs.Blindness

/-!
# Matching without a table

The plainest way to apply a rule is to run its body, each time anew. The table only spares the
matcher work that it has done before: where the plain way comes to an end within the allowed depth,
matching through the table comes to the same end, whether results are kept or not.

* `direct`: application without a table.
* `direct_mono`: a plain run that keeps within a depth is the same at any greater depth.
* `Truthful`: a finished entry holds what a plain run gives, and nothing was met while it ran.
* `memoized_follows_direct`: the table does not change what a plain run comes to.
* `Engine.matchRule_eq_matchRuleDirectly`: the same of a whole match, if actions cannot tell NaNs
  apart.
-/

namespace Packrat

variable {φ : Type} [Account φ]

/-- **Plain application.** The body runs, and the application settles as it does through the table.
Nothing is looked up, nothing is marked as running and no seed is grown. -/
def direct : Strategy φ := fun frame call body st => do
  let (value, inside) ← body { st with account := Account.empty }
  return (value, (settle frame call.rule st.pos st.account value inside).2)

/-- Plain application does not tell NaNs apart. -/
theorem direct_alike {ψ : Type} [Account ψ] {R : Rendering φ ψ} {exempt : Halt → Prop} :
    Strategy.Alike R exempt direct direct := by
  intro f call body other hb s t h
  have hin : State.Alike R { s with account := Account.empty }
      { t with account := Account.empty } :=
    h.withAccount R.empty
  exact (hb _ _ hin).bind fun a b hab =>
    ⟨_, rfl, hab.value, h.settled hab.value hab.state f call.rule⟩

/-- Rules are applied as by a keyed match. -/
theorem direct_keyed {ψ : Type} [Account ψ] {registry : Registry} (hb : registry.Blind)
    (R : Rendering φ ψ) (limit depth : Nat) :
    Applier.Alike R (fun _ => False) (applyDepth direct registry limit depth)
      (applyKeyed direct registry limit depth) :=
  applyDepth_alike hb direct_alike limit depth

/-! ### Depth -/

/-- States of plain runs are alike if they differ in their tables only. -/
def untabled : Likeness φ φ :=
  .ofTables (fun h => h.isLimit = true) (fun _ _ _ => True) trivial

variable (registry : Registry) (limit : Nat)

/-- **Depth only cuts off.** A plain run that keeps within a depth is the same at any greater depth,
and with any table. -/
theorem direct_mono {n m : Nat} (h : n ≤ m) :
    (untabled (φ := φ)).coupling.InStep (applyKeyed direct registry limit m)
      (applyKeyed direct registry limit n) := by
  refine untabled.applyKeyed_mono registry limit limit (fun _ => rfl)
    (fun f call body body' s t hb hl => ?_) h
  have hpos : s.pos = t.pos := hl.pos
  have hacc : s.account = t.account := hl.accounts
  refine (hb { s with account := Account.empty } { t with account := Account.empty }
    ⟨hl.pos, trivial, rfl⟩).bind fun v s' t' hst => ⟨_, rfl, ?_, trivial, ?_⟩
  · simp only [settle, hst.pos, hpos]
  · have hacc' : s'.account = t'.account := hst.accounts
    show (settle _ _ _ _ _ _).2.account = (settle _ _ _ _ _ _).2.account
    simp only [settle, hacc, hacc', hpos]

/-- The body of an application, run plainly at a depth, with nothing missed before. -/
def plainBody (depth : Nat) (f : Frame) (spot : Spot) (r : Rule) : Except Halt (Answer φ) :=
  runBody (applyKeyed direct registry limit depth) registry f spot.2.dispatch spot.2.owner r
    spot.2.args { pos := spot.1, memo := .empty, account := Account.empty }

/-- Greater depth changes a plain run only if it was cut off. -/
theorem plainBody_mono {n m : Nat} (h : n ≤ m) (f : Frame) (spot : Spot) (r : Rule) :
    Follows (fun h => h.isLimit = true) ((untabled (φ := φ)).Like f)
      (plainBody registry limit m f spot r) (plainBody registry limit n f spot r) :=
  Coupling.runBody_of_rules registry (fun _ => trivial) (direct_mono registry limit h) f _ _ r _ _ _
    ⟨rfl, trivial, rfl⟩

variable {registry limit} {f : Frame} {spot : Spot} {r : Rule}

/-- A plain run that yields something at one depth yields the same at every depth at which it is not
cut off. -/
theorem plainBody_ok {n m : Nat} {v : Option Value} {t : State φ}
    (hm : plainBody registry limit m f spot r = .ok (v, t))
    (hn : ¬ Limited (plainBody (φ := φ) registry limit n f spot r)) :
    ∃ t', plainBody registry limit n f spot r = .ok (v, t') ∧ t'.pos = t.pos ∧
      t'.account = t.account := by
  have h1 := plainBody_mono (φ := φ) registry limit (Nat.le_max_left n m) f spot r
  have h2 := plainBody_mono (φ := φ) registry limit (Nat.le_max_right n m) f spot r
  rw [hm] at h2
  obtain ⟨s, hs, hst⟩ := h2
  cases hb : plainBody (φ := φ) registry limit n f spot r with
  | error h =>
    rw [hb] at h1
    rcases h1 with h1 | h1
    · exact absurd ⟨h, hb, h1⟩ hn
    · rw [hs] at h1; cases h1
  | ok vt =>
    rw [hb] at h1
    obtain ⟨s', hs', hst'⟩ := h1
    rw [hs] at hs'
    cases hs'
    exact ⟨vt.2, rfl, hst'.pos.symm.trans hst.pos, hst'.accounts.symm.trans hst.accounts⟩

/-- Likewise for a plain run that ends in an error. -/
theorem plainBody_error {n m : Nat} {h : Halt}
    (hm : plainBody (φ := φ) registry limit m f spot r = .error h) (hh : ¬ h.isLimit = true)
    (hn : ¬ Limited (plainBody (φ := φ) registry limit n f spot r)) :
    plainBody (φ := φ) registry limit n f spot r = .error h := by
  cases hb : plainBody (φ := φ) registry limit n f spot r with
  | ok vt =>
    obtain ⟨t', hm', -⟩ := plainBody_ok (n := m) (m := n) hb
      (by rw [hm]; rintro ⟨h', he, hl⟩; cases he; exact hh hl)
    rw [hm] at hm'
    cases hm'
  | error h' =>
    have h1 := plainBody_mono (φ := φ) registry limit (Nat.le_max_left n m) f spot r
    have h2 := plainBody_mono (φ := φ) registry limit (Nat.le_max_right n m) f spot r
    rw [hb] at h1
    rw [hm] at h2
    have h1 := h1.resolve_left fun hl => hn ⟨h', hb, hl⟩
    have h2 := h2.resolve_left hh
    rw [h1] at h2
    cases h2
    rfl

/-- If something fails to hold at a depth, there is a least depth at which it fails. -/
theorem exists_least_depth {P : Nat → Prop} (k : Nat) (hk : ¬ P k) :
    ∃ k₀ ≤ k, ¬ P k₀ ∧ ∀ j < k₀, P j := by
  induction k using Nat.strongRecOn with
  | ind k ih =>
    by_cases h : ∃ j < k, ¬ P j
    · obtain ⟨j, hj, hPj⟩ := h
      obtain ⟨k₀, hk₀, h₀⟩ := ih j hj hPj
      exact ⟨k₀, by omega, h₀⟩
    · exact ⟨k, Nat.le_refl k, hk, fun j hj => Classical.byContradiction fun hn => h ⟨j, hj, hn⟩⟩

/-! ### What tables say -/

variable (φ registry limit) in
/-- The plain run of an application is cut off at every depth below `depth`. -/
def Stuck (depth : Nat) (f : Frame) (spot : Spot) : Prop :=
  ∀ r, spot.2.owner.rule? spot.2.rule = some r → ∀ k < depth,
    Limited (plainBody (φ := φ) registry limit k f spot r)

variable (registry limit) in
/-- **What a table may say** about a frame: a finished entry is what a plain run gives, and what is
running was not met again and is among `running`. -/
structure Truthful (running : Frame → Spot → Prop) (f : Frame) (memo : Memo φ) : Prop where
  done {spot : Spot} {v : Option Value} {stop : Nat} {account : φ} {r : Rule} :
    memo.get? spot = some (.done v stop account) → spot.2.owner.rule? spot.2.rule = some r →
      ∃ k t, plainBody registry limit k f spot r = .ok (v, t) ∧ (v.isSome → stop = t.pos) ∧
        account = Account.ofRule f spot.2.rule spot.1 v.isNone t.account
  active {spot : Spot} {met : Bool} :
    memo.get? spot = some (.active met) → met = false ∧ running f spot

variable (registry limit) in
/-- A match through a truthful table beside a plain one. -/
def tabled (running : Frame → Spot → Prop) : Likeness φ φ :=
  .ofTables (fun h => h.isLimit = true)
    (fun f memo _ => Truthful registry limit running f memo)
    ⟨fun h => by simp at h, fun h => by simp at h⟩

/-- What runs once `spot` has begun in `f`. -/
def andRunning (running : Frame → Spot → Prop) (f : Frame) (spot : Spot) : Frame → Spot → Prop :=
  fun f' x => running f' x ∨ (f' = f ∧ x = spot)

variable {running : Frame → Spot → Prop} {memo : Memo φ}

theorem Truthful.begin (h : Truthful registry limit running f memo) :
    Truthful registry limit (andRunning running f spot) f (memo.begin spot) where
  done hd hr := by
    rw [Memo.get?_begin] at hd
    split at hd
    · cases hd
    · exact h.done hd hr
  active ha := by
    rw [Memo.get?_begin] at ha
    split at ha
    next hx => cases ha; exact ⟨rfl, .inr ⟨rfl, hx⟩⟩
    next => exact ⟨(h.active ha).1, .inl (h.active ha).2⟩

/-- No running application was met again. -/
theorem Truthful.not_met (h : Truthful registry limit running f memo) :
    memo.isLeftRecursive spot = false := by
  unfold Memo.isLeftRecursive
  split
  next met hm => exact (h.active hm).1
  next => rfl

/-- The end of an application takes it out of what is running, and what is kept of it is what a
plain run gave. -/
theorem Truthful.left {s inside t : State φ} {call : Call}
    (h : Truthful registry limit (andRunning running f (s.pos, call)) f inside.memo)
    {keep : Bool} {k : Nat} {v : Option Value}
    (hp : ∀ r, call.owner.rule? call.rule = some r →
      plainBody registry limit k f (s.pos, call) r = .ok (v, t))
    (hpos : inside.pos = t.pos) (hacc : inside.account = t.account) :
    Truthful registry limit running f (s.left keep f call v inside).memo where
  done {x v' stop account r} hd hr := by
    unfold State.left at hd
    cases keep with
    | true =>
      rw [if_pos rfl, Memo.get?_set] at hd
      split at hd
      next hx =>
        cases hd
        subst hx
        exact ⟨k, t, hp r hr, fun _ => hpos, by rw [hacc]⟩
      next => exact h.done hd hr
    | false =>
      rw [if_neg Bool.false_ne_true, Memo.get?_erase] at hd
      split at hd
      · cases hd
      · exact h.done hd hr
  active {x met} ha := by
    have hx : x ≠ (s.pos, call) ∧ inside.memo.get? x = some (.active met) := by
      unfold State.left at ha
      cases keep with
      | true =>
        rw [if_pos rfl, Memo.get?_set] at ha
        split at ha
        · cases ha
        · exact ⟨‹_›, ha⟩
      | false =>
        rw [if_neg Bool.false_ne_true, Memo.get?_erase] at ha
        split at ha
        · cases ha
        · exact ⟨‹_›, ha⟩
    obtain ⟨hmet, hrun⟩ := h.active hx.2
    exact ⟨hmet, hrun.resolve_right fun he => hx.1 he.2⟩

/-! ### Matching through the table -/

/-- One application through the table comes to what the plain run of its body comes to at depth `k`,
if the body does so at the least depth that is not cut off: at that depth the application itself is
stuck, so its body cannot meet it again. -/
theorem memoized_follows_plainBody {keep : Bool} {k : Nat} {call : Call} {body : Attempt φ}
    {s : State φ} (hr : call.owner.rule? call.rule = some r)
    (ht : Truthful registry limit running f s.memo)
    (hs : ∀ f spot, running f spot → Stuck φ registry limit (k + 1) f spot)
    (hb : ∀ k₀ ≤ k,
      (∀ f' x, andRunning running f (s.pos, call) f' x → Stuck φ registry limit k₀ f' x) →
        Follows (fun h => h.isLimit = true)
          ((tabled registry limit (andRunning running f (s.pos, call))).Like f)
          (body (s.entered call)) (plainBody registry limit k₀ f (s.pos, call) r)) :
    Follows (fun h => h.isLimit = true) ((tabled registry limit running).Like f)
      (memoized keep f call body s)
      (plainBody registry limit k f (s.pos, call) r >>= fun x =>
        .ok (x.1, (settle f call.rule s.pos s.account x.1 x.2).2)) := by
  by_cases hk : Limited (plainBody (φ := φ) registry limit k f (s.pos, call) r)
  · obtain ⟨h, hp, hh⟩ := hk
    rw [hp]
    exact .inl hh
  cases hg : s.memo.get? (s.pos, call) with
  | some entry =>
    cases entry with
    | active met =>
      -- what is running is stuck at this depth, so the plain run would have been cut off
      exact absurd (hs f _ (ht.active hg).2 r hr k (by omega)) hk
    | done v stop account =>
      obtain ⟨k', t, hp, hstop, hacc⟩ := ht.done hg hr
      obtain ⟨t', hp', hpos, hacc'⟩ := plainBody_ok hp hk
      rw [hp', memoized_of_done hg]
      refine ⟨_, rfl, ?_, ht, ?_⟩
      · cases v with
        | none => rfl
        | some _ => exact (hstop rfl).trans hpos.symm
      · show Account.append s.account account = _
        rw [hacc, ← hacc']
        rfl
  | none =>
    -- at the least depth that suffices, the application joins what is stuck
    obtain ⟨k₀, hle, hk₀, hleast⟩ := exists_least_depth
      (P := fun k => Limited (plainBody (φ := φ) registry limit k f (s.pos, call) r)) k hk
    have hb₀ := hb k₀ hle fun f' x hx => by
      rcases hx with hx | ⟨rfl, rfl⟩
      · exact fun r' hr' j hj => hs f' x hx r' hr' j (by omega)
      · intro r' hr' j hj
        obtain rfl : r = r' := Option.some.inj (hr.symm.trans hr')
        exact hleast j hj
    cases hp : plainBody (φ := φ) registry limit k₀ f (s.pos, call) r with
    | error h =>
      have hh : ¬ h.isLimit = true := fun hh => hk₀ ⟨h, hp, hh⟩
      rw [hp] at hb₀
      rw [plainBody_error hp hh hk, memoized_of_error hg (hb₀.resolve_left hh)]
      exact .inr rfl
    | ok vt =>
      rw [hp] at hb₀
      obtain ⟨s', hs', hl'⟩ := hb₀
      obtain ⟨t', hp', hpos, hacc⟩ := plainBody_ok hp hk
      rw [hp', memoized_of_settled hg hs' (.inr hl'.tables.not_met)]
      have hacc' : s'.account = vt.2.account := hl'.accounts
      refine ⟨_, rfl, ?_, hl'.tables.left (k := k₀) (fun r' hr' => ?_) hl'.pos hacc', ?_⟩
      · show (if vt.1.isSome then s'.pos else s.pos) = if vt.1.isSome then t'.pos else s.pos
        rw [hl'.pos, hpos]
      · obtain rfl : r = r' := Option.some.inj (hr.symm.trans hr')
        exact hp
      · show Account.append s.account _ = Account.append s.account _
        rw [hacc', hacc]

/-- **The table does not change what a plain run comes to.** -/
theorem memoized_follows_direct (keep : Bool) {depth n : Nat} (hn : n ≤ depth)
    (hs : ∀ f spot, running f spot → Stuck φ registry limit n f spot) :
    (tabled registry limit running).coupling.InStep
      (applyKeyed (memoized (φ := φ) keep) registry limit depth)
      (applyKeyed direct registry limit n) := by
  induction depth generalizing n running with
  | zero =>
    obtain rfl : n = 0 := by omega
    exact fun _ _ _ _ _ _ _ _ _ => .inl rfl
  | succ depth ih =>
    cases n with
    | zero => exact fun _ _ _ _ _ _ _ _ _ => .inl rfl
    | succ n =>
      intro f d o r args s t hr hl
      have hstep : Follows (fun h => h.isLimit = true) ((tabled registry limit running).Like f)
          (applyKeyed (memoized keep) registry limit (depth + 1) f d o r args s)
          (applyKeyed direct registry limit (n + 1) f d o r args { s with memo := .empty }) :=
        memoized_follows_plainBody hr hl.tables hs fun k₀ hk₀ hs₀ =>
          Coupling.runBody_of_rules registry (fun _ => trivial) (ih (by omega) hs₀) f d o r
            (Value.signatures args) (s.entered (r.call d o args))
            { pos := s.pos, memo := .empty, account := Account.empty }
            ⟨rfl, hl.tables.begin, rfl⟩
      -- the table of the plain match does not matter
      have hplain := direct_mono (φ := φ) registry limit (Nat.le_refl (n + 1)) f d o r args
        { s with memo := .empty } t hr ⟨hl.pos, trivial, hl.accounts⟩
      refine (hstep.trans hplain).mono fun s' t' h => ?_
      obtain ⟨u, hsu, hut⟩ := h
      exact ⟨hsu.pos.trans hut.pos, hsu.tables, hsu.accounts.trans hut.accounts⟩

/-! ### Whole matches -/

namespace Engine

/-- A run without a table. -/
def runDirectly (e : Engine) (g : Grammar) (rule : String) (input : Input) (args : List Value)
    (toEnd : Bool) : Except Halt Outcome :=
  (applyName (applyDepth direct e.registry e.options.maxDepth e.options.maxDepth) { input } g rule
    args (.start Account.empty)).map (conclude input toEnd)

/-- Matches a rule from the start of an input as far as it goes, without a table. -/
def matchRuleDirectly (e : Engine) (g : Grammar) (rule : String) (input : Input)
    (args : List Value) : Except Cause Outcome :=
  (e.runDirectly g rule input args false).mapError e.causeOfHalt

/-- A run through the table is the run without one up to the bits of NaNs, unless the latter is cut
off. -/
theorem run_alike_runDirectly (e : Engine) (hb : e.registry.Blind) (keep : Bool) (g : Grammar)
    (rule : String) (input : Input) (args : List Value) (toEnd : Bool)
    (h : ¬ Limited (e.runDirectly g rule input args toEnd)) :
    ((e.keeping keep).run g rule input args toEnd).map Outcome.signature =
      (e.runDirectly g rule input args toEnd).map Outcome.signature := by
  -- both runs are as keyed ones, which the table does not change
  have hplain : (e.runDirectly g rule input args toEnd).map Outcome.signature =
      ((e.startKeyed direct g rule input args).map (conclude input toEnd)).map Outcome.signature :=
    map_conclude_alike (direct_keyed hb (.same Furthest) e.options.maxDepth e.options.maxDepth) g
      rule input args toEnd
  have hstep :
      (tabled (φ := Furthest) e.registry e.options.maxDepth fun _ _ => False).coupling.InStep
        (applyKeyed (memoized keep) e.registry e.options.maxDepth e.options.maxDepth)
        (applyKeyed direct e.registry e.options.maxDepth e.options.maxDepth) :=
    memoized_follows_direct keep (Nat.le_refl _) fun _ _ hf => hf.elim
  have hfollows : Follows _ _ (e.startKeyed (memoized keep) g rule input args)
      (e.startKeyed direct g rule input args) :=
    Coupling.applyName_of_rules (fun _ => trivial) hstep { input } g rule args _ _
      ⟨rfl, Likeness.fresh _, rfl⟩
  have hkeyed : (e.startKeyed (memoized keep) g rule input args).map (conclude input toEnd) =
      (e.startKeyed direct g rule input args).map (conclude input toEnd) := by
    refine map_conclude_of_follows (fun _ _ hl => ⟨hl.pos, hl.accounts⟩) hfollows ?_ input toEnd
    intro halt hd hl
    have hcut : Limited ((e.runDirectly g rule input args toEnd).map Outcome.signature) := by
      rw [hplain, hd]
      exact ⟨halt, rfl, hl⟩
    exact h (Limited.of_map hcut)
  rw [run_keyed e hb, hkeyed, hplain]

/-- A plain run that succeeds with a value that equals itself is the run through the table. -/
theorem run_eq_of_runDirectly (e : Engine) (hb : e.registry.Blind) {g : Grammar} {rule : String}
    {input : Input} {args : List Value} {toEnd : Bool} {v : Value} {c : Cursor}
    (h : e.runDirectly g rule input args toEnd = .ok (.success v c)) (hv : v.equals v = true) :
    e.run g rule input args toEnd = .ok (.success v c) := by
  have hcut : ¬ Limited (e.runDirectly g rule input args toEnd) := by
    rw [h]
    rintro ⟨_, hh, -⟩
    cases hh
  have hrun : (e.run g rule input args toEnd).map Outcome.signature = _ :=
    run_alike_runDirectly e hb e.options.memoize g rule input args toEnd hcut
  rw [h] at hrun
  cases hr : e.run g rule input args toEnd with
  | error halt => rw [hr] at hrun; cases hrun
  | ok outcome =>
    rw [hr] at hrun
    cases outcome with
    | failure f => cases hrun
    | success w c' =>
      obtain ⟨hw, rfl⟩ := Outcome.success.inj (Except.ok.inj hrun)
      rw [Value.Alike.eq (v := v) (w := w) hw.symm hv]

/-- A grammar that asks for `a` twice at one place: `start = a 'x' / a 'y'` and `a = 'b'`. -/
def twice : Grammar :=
  Draft.freeze
    { name := "Twice"
      rules := [
        { name := "start"
          body := .choice [.sequence [.apply "a" [], .literal "x"],
            .sequence [.apply "a" [], .literal "y"]] },
        { name := "a", body := .literal "b" }] }

/-- An engine with a function that tells the signs of numbers, those of NaNs as well. -/
def signed : Engine :=
  { registry := ⟨[("sign", fun
      | [.number n] => .ok (.bool n.negative)
      | args => Native.wrongCount "sign" "1 argument" args)]⟩ }

/-- Two signs asked for at one place: `start(x, y) = sign(x):a sign(y):b -> [a, b]`, where
`sign(z) = -> sign(z)`. -/
def signs : Grammar :=
  Draft.freeze
    { name := "Signs"
      rules := [
        { name := "start"
          params := ["x", "y"]
          body := .sequence [.bind "a" (.apply "sign" [.var "x"]),
            .bind "b" (.apply "sign" [.var "y"]), .action (.list [.var "a", .var "b"])] },
        { name := "sign", params := ["z"], body := .action (.call "sign" [.var "z"]) }] }

/-- **Blindness is needed**: the second NaN is filed where the first one is, so it is given the sign
of the first one. -/
theorem matchRule_signs :
    let nans := [Value.number (.nanOfSign false), .number (.nanOfSign true)]
    let found (sign : Bool) : Except Cause Outcome :=
      .ok (.success (.list [.bool false, .bool sign]) { input := .ofString "", pos := 0 })
    (signed.keeping true).matchRule signs "start" (.ofString "") nans = found false ∧
      signed.matchRuleDirectly signs "start" (.ofString "") nans = found true := by
  decide +kernel

end Engine

end Packrat
