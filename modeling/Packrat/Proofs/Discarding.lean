import Packrat.Proofs.Scopes
import Packrat.Proofs.Straight

/-!
# What a discarded branch leaves behind

A choice goes on with the next alternative where one fails, a negated lookahead goes back whatever
it found, and the last round of a repetition may be one that fails. What such a branch has done is
not undone altogether: the table keeps the results of the rules that it applied, and the scope keeps
what it bound. The former makes no difference to what is without left recursion, except to how deep
the match nests. The latter makes a difference to those who read the names that the branch binds,
and to nobody else.

The match may stand in the midst of one that is left-recursive, so the table may hold seeds and what
was made of them. Of applications without left recursion it still holds what plain matches give, and
whatever a match does keeps it so.

* `Faithful`: the table holds of them what plain matches give.
* `memoized_accords`: through such a table they come to what they come to strictly.
* `Trusted.application`: whatever is applied keeps the table so.
* `SameBut`: evaluations that come to the same, up to some names.
* `Expr.choice_of_failed`: after an alternative that failed, a choice is the rest of the choice.
-/

namespace Packrat

variable {φ ψ : Type}

/-! ### Tables that can be trusted -/

/-- **A faithful table** of a frame holds, of applications without left recursion, what plain
matches give. -/
def Faithful (registry : Registry) (limit : Nat) (f : Frame) (memo : Memo φ) : Prop :=
  memo.Every fun x v stop _ => Straight registry limit f x → Gives registry limit f x v stop

/-- **A table that can be trusted** where nothing is under way that is without left recursion. -/
structure Trusted (registry : Registry) (limit : Nat) (f : Frame) (memo : Memo φ) : Prop where
  faithful : Faithful registry limit f memo
  idle {x : Spot} : Straight registry limit f x → memo.Idle x

/-- The same of a keyed match, to the letter. -/
def Verbatim (registry : Registry) (limit : Nat) (f : Frame) (memo : Memo φ) : Prop :=
  memo.Every fun x v stop _ => Straight registry limit f x → GivesKeyed registry limit f x v stop

theorem Trusted.empty {registry : Registry} {limit : Nat} {f : Frame} :
    Trusted registry limit f (.empty : Memo φ) :=
  ⟨.empty, fun _ _ => by simp⟩

section Tables

variable [Account φ] {registry : Registry} {limit : Nat} {f : Frame} {m w : Memo φ}

/-- A keyed match could start with a table that is alike. -/
theorem Faithful.exists_verbatim (hb : registry.Blind) (h : Faithful registry limit f m) :
    ∃ w : Memo φ, m.Matches (Entry.Alike (.same φ)) w ∧ Verbatim registry limit f w := by
  obtain ⟨w, hm, hw⟩ := Memo.Matches.exists_of_entries (E := Entry.Alike (.same φ))
    (P := fun x b => ∀ v stop a, b = .done v stop a → Straight registry limit f x →
      GivesKeyed registry limit f x v stop) m fun x a ha => by
    cases a with
    | active met => exact ⟨_, .active met, fun _ _ _ he => by cases he⟩
    | done v stop a =>
      by_cases hx : Straight registry limit f x
      · obtain ⟨v', hv, hgives⟩ := (gives_iff_keyed hb).1 (h x v stop a ha hx)
        exact ⟨.done v' stop a, .done stop hv rfl, fun _ _ _ he _ => by cases he; exact hgives⟩
      · refine ⟨.done v stop a, .done stop (Value.rel_alike_iff.2 rfl) rfl, ?_⟩
        exact fun _ _ _ _ hx' => absurd hx' hx
  exact ⟨w, hm, fun x v stop a ha => hw x _ ha v stop a rfl⟩

/-- What a keyed match leaves in its table is what the other leaves. -/
theorem Verbatim.faithful (hb : registry.Blind) (h : Verbatim registry limit f w)
    (hm : m.Matches (Entry.Alike (.same φ)) w) : Faithful registry limit f m := by
  intro x v stop a ha hx
  obtain ⟨b, hb', hentry⟩ := hm.of_some ha
  cases hentry with
  | done _ hv _ => exact (gives_iff_keyed hb).2 ⟨_, hv, h x _ _ _ hb' hx⟩

end Tables

/-! ### A match through the table beside a strict one -/

/-- Such a table beside that of a strict match, in which all is marked that is under way and without
left recursion. -/
structure Tallies (registry : Registry) (limit : Nat) (f : Frame) (m : Memo φ) (u : Memo ψ) :
    Prop where
  verbatim : Verbatim registry limit f m
  active {x : Spot} {met : Bool} : Straight registry limit f x →
    m.get? x = some (.active met) → u.get? x = some (.active met)

/-- States of a match through the table and of a strict one beside it. -/
structure Abreast (registry : Registry) (limit : Nat) (f : Frame) (s : State φ) (t : State ψ) :
    Prop where
  pos : s.pos = t.pos
  tables : Tallies registry limit f s.memo t.memo

/-- **Two computations accord** if they come to related results or to the same error, unless the
first is cut off or the second is stopped. -/
def Accords {α β : Type} (R : α → β → Prop) (m : Except Halt α) (n : Except Halt β) : Prop :=
  Limited m ∨ Stopped n ∨ (∃ h, m = .error h ∧ n = .error h) ∨ ∃ a b, m = .ok a ∧ n = .ok b ∧ R a b

namespace Accords

variable {α β γ δ : Type} {R : α → β → Prop} {S : γ → δ → Prop} {m : Except Halt α}
  {n : Except Halt β}

theorem ok {a : α} {b : β} (h : R a b) : Accords R (.ok a) (.ok b) :=
  .inr (.inr (.inr ⟨a, b, rfl, rfl, h⟩))

theorem error (h : Halt) : Accords R (.error h) (.error h) := .inr (.inr (.inl ⟨h, rfl, rfl⟩))

theorem bind {j : α → Except Halt γ} {k : β → Except Halt δ} (h : Accords R m n)
    (hjk : ∀ a b, R a b → Accords S (j a) (k b)) : Accords S (m >>= j) (n >>= k) := by
  rcases h with h | h | ⟨h, rfl, rfl⟩ | ⟨a, b, rfl, rfl, hab⟩
  · exact .inl (h.bind j)
  · exact .inr (.inl (h.bind k))
  · exact .error h
  · exact hjk a b hab

/-- Computations accord if views of them do. -/
theorem of_view {g : α → γ} {k : β → δ}
    (h : Accords S (m >>= fun a => .ok (g a)) (n >>= fun b => .ok (k b))) :
    Accords (fun a b => S (g a) (k b)) m n := by
  have herror {ρ σ : Type} {m : Except Halt ρ} {view : ρ → σ} {e : Halt}
      (he : (m >>= fun a => .ok (view a)) = .error e) : m = .error e := by
    cases m with
    | error e' => cases he; rfl
    | ok a => cases he
  rcases h with ⟨e, he, hl⟩ | (⟨e, he, hl⟩ | he) | ⟨e, hm, hn⟩ | ⟨c, d, hm, hn, hcd⟩
  · exact .inl ⟨e, herror he, hl⟩
  · exact .inr (.inl (.inl ⟨e, herror he, hl⟩))
  · exact .inr (.inl (.inr (herror he)))
  · exact .inr (.inr (.inl ⟨e, herror hm, herror hn⟩))
  · obtain ⟨a, ha, hac⟩ := bind_eq_ok hm
    obtain ⟨b, hb, hbd⟩ := bind_eq_ok hn
    cases hac
    cases hbd
    exact .inr (.inr (.inr ⟨a, b, ha, hb, hcd⟩))

end Accords

/-- Answers with the same value, in states that are alike; the second has left its table as it was,
which is `u`. -/
structure Together (like : State φ → State ψ → Prop) (u : Memo ψ) {α : Type}
    (x : α × State φ) (y : α × State ψ) : Prop where
  same : x.1 = y.1
  like : like x.2 y.2
  memo : y.2.memo = u

variable [Account φ] [Account ψ] (registry : Registry) (limit : Nat)

/-- **A match through the table beside a strict one.** -/
def accord : Coupling φ ψ where
  rel f s t m n := Abreast registry limit f s t →
    Accords (Together (Abreast registry limit f) t.memo) m n
  halts _ := True
  at_pos h hl := h hl.pos hl
  halt _ _ := .error _
  move hl := .ok ⟨rfl, ⟨rfl, hl.tables⟩, rfl⟩
  expect hl := .ok ⟨rfl, ⟨hl.pos, hl.tables⟩, rfl⟩
  bind h hjk hl := (h hl).bind fun (a, s) (_, t) ⟨hsame, hst, hu⟩ => by
    obtain rfl : a = _ := hsame
    exact hu ▸ hjk a s t hst
  negated h hl := (h ⟨hl.pos, hl.tables⟩).bind fun _ _ hx =>
    .ok ⟨hx.same, ⟨hx.like.pos, hx.like.tables⟩, hx.memo⟩
  nested _ h hl := (h ⟨rfl, .empty, fun _ h => by simp [State.start] at h⟩).bind fun _ _ hx =>
    .ok ⟨hx.same, ⟨hl.pos, hl.tables⟩, rfl⟩

variable {registry limit} {f : Frame} {s : State φ} {t : State ψ}

theorem Abreast.entered {call : Call} (h : Abreast registry limit f s t) :
    Abreast registry limit f (s.entered call) (t.marked call) where
  pos := h.pos
  tables := ⟨Memo.Every.begin h.tables.verbatim,
    fun hx => State.active_entered h.pos (h.tables.active hx)⟩

/-- What was kept of an application is what a strict run of its body gives, if that is not
stopped. -/
theorem GivesKeyed.accords {n : Nat} {spot : Spot} {r : Rule} {v : Option Value} {stop : Nat}
    (h : GivesKeyed registry limit f spot v stop) (hr : spot.2.owner.rule? spot.2.rule = some r)
    (ht : t.pos = spot.1) {b : Except Halt (Answer ψ)}
    (hb : runBody (applyKeyed strict registry limit n) registry f spot.2.dispatch spot.2.owner r
      spot.2.args t = b) :
    Stopped b ∨ ∃ t', b = .ok (v, t') ∧ (v.isSome → stop = t'.pos) := by
  obtain ⟨k, u, hk, hstop⟩ := h r hr
  have hplain := plainBody_follows_strict registry limit n f spot r ht
  rw [hb] at hplain
  by_cases hlim : Limited (plainBody (φ := Unit) registry limit n f spot r)
  · obtain ⟨e, he, hlimit⟩ := hlim
    cases b with
    | error e' =>
      refine .inl (hplain.elim (fun hx => .inr (by rw [hx])) fun hx => .inl ?_)
      rw [he] at hx
      cases hx
      exact ⟨e, rfl, hlimit⟩
    | ok r =>
      obtain ⟨_, hx, -⟩ := hplain
      rw [he] at hx
      cases hx
  · obtain ⟨u', hn, hpos, -⟩ := plainBody_ok hk hlim
    cases b with
    | error e' =>
      refine .inl (.inr ?_)
      rw [hplain.resolve_right fun hx => by rw [hn] at hx; cases hx]
    | ok r =>
      obtain ⟨s', hx, hs⟩ := hplain
      rw [hn] at hx
      cases hx
      exact .inr ⟨r.2, rfl, fun hv => (hstop hv).trans (hpos.symm.trans hs)⟩

theorem Abreast.left {keep : Bool} {call : Call} {v : Option Value} {inside : State φ}
    {inside' : State ψ} (hl : Abreast registry limit f s t)
    (h : Abreast registry limit f inside inside') (hu : inside'.memo = (t.marked call).memo)
    (hy : GivesKeyed registry limit f (s.pos, call) v inside.pos) :
    Abreast registry limit f (s.left keep f call v inside) (t.unmarked f call v inside') where
  pos := by simp only [State.left, State.unmarked, settle, h.pos, hl.pos]
  tables := by
    refine ⟨?_, fun {x met} hx ha => ?_⟩
    · cases keep with
      | true => exact Memo.Every.set_done h.tables.verbatim fun _ => hy
      | false => exact Memo.Every.erase h.tables.verbatim
    · show t.memo.get? x = _
      exact State.active_left hl.pos (fun ha => hu ▸ h.tables.active hx ha) ha

/-- **One application through the table beside a strict one**, if that is so of the body, and if
what a strict run of the body comes to is what plain matches give. Where the strict application is
not stopped it is one without left recursion, and what the table knows of it counts. -/
theorem memoized_accords_strict {keep : Bool} {call : Call} {body : Attempt φ} {body' : Attempt ψ}
    (hl : Abreast registry limit f s t)
    (hx : ¬ Stopped (strict f call body' t) → Straight registry limit f (s.pos, call))
    (hb : Accords (Together (Abreast registry limit f) (t.marked call).memo)
      (body (s.entered call)) (body' (t.marked call)))
    (hdone : ∀ v stop, GivesKeyed registry limit f (s.pos, call) v stop →
      Stopped (body' (t.marked call)) ∨
        ∃ t', body' (t.marked call) = .ok (v, t') ∧ (v.isSome → stop = t'.pos))
    (hnew : ∀ v t', body' (t.marked call) = .ok (v, t') →
      GivesKeyed registry limit f (s.pos, call) v t'.pos) :
    Accords (Together (Abreast registry limit f) t.memo) (memoized keep f call body s)
      (strict f call body' t) := by
  by_cases hstop : Stopped (strict f call body' t)
  · exact .inr (.inl hstop)
  have hx : Straight registry limit f (s.pos, call) := hx hstop
  rcases t.memo.active_or_idle (t.pos, call) with ⟨met, hmet⟩ | hidle
  · exact absurd (.inr (strict_of_active hmet)) hstop
  rw [strict_of_idle hidle] at hstop ⊢
  cases hg : s.memo.get? (s.pos, call) with
  | some entry =>
    cases entry with
    | active met => exact absurd (hl.pos ▸ hl.tables.active hx hg) (hidle met)
    | done v stop account =>
      rw [memoized_of_done hg]
      have hgives := hl.tables.verbatim _ v stop account hg hx
      rcases hdone v stop hgives with hs | ⟨t', ht', hend⟩
      · exact absurd (hs.bind _) hstop
      · rw [ht']
        refine .ok ⟨rfl, ⟨?_, hl.tables⟩, rfl⟩
        cases v with
        | none => exact hl.pos
        | some v => exact hend rfl
  | none =>
    rcases hb with ⟨e, hb, he⟩ | hb | ⟨e, hb, hb'⟩ |
      ⟨⟨v, inside⟩, ⟨_, inside'⟩, hb, hb', rfl, hin, hu⟩
    · exact .inl ⟨e, memoized_of_error hg hb, he⟩
    · exact absurd (hb.bind _) hstop
    · rw [memoized_of_error hg hb, hb']
      exact .error e
    · have hmet : inside.memo.isLeftRecursive (s.pos, call) = false :=
        State.not_met hl.pos fun _ ha => hu ▸ hin.tables.active hx ha
      rw [memoized_of_settled hg hb (.inr hmet), hb']
      exact .ok ⟨rfl, hl.left hin hu (hin.pos ▸ hnew v inside' hb'), rfl⟩

/-- A strict match that comes to an end beside others that are under way does so alone. -/
theorem straight_of_strict (hb : registry.Blind) {n : Nat} {d o : Grammar} {r : Rule}
    {args : List Value} (hr : o.rule? r.name = some r)
    (h : ¬ Stopped (applyKeyed strict registry limit n f d o r args t)) :
    Straight registry limit f (t.pos, r.call d o args) := by
  refine (straight_iff_keyed hb).2 ⟨r, n, hr, fun hstop => h ?_⟩
  have halone := strict_lighter (φ := Unit) registry limit (Nat.le_refl n) f d o r args
    ⟨t.pos, .empty, ()⟩ t hr ⟨rfl, fun _ _ _ => by simp, trivial⟩
  have hstop : Stopped (applyKeyed strict registry limit n f d o r (Value.signatures args)
      ⟨t.pos, .empty, ()⟩) := hstop
  rw [applyKeyed_signatures] at hstop
  cases hm : applyKeyed strict registry limit n f d o r args t with
  | error e =>
    rw [hm] at halone
    rcases halone with (he | rfl) | he
    · exact .inl ⟨e, rfl, he⟩
    · exact .inr rfl
    · rw [he] at hstop
      rcases hstop with ⟨e', he', hl⟩ | he'
      · cases he'
        exact .inl ⟨e, rfl, hl⟩
      · cases he'
        exact .inr rfl
  | ok a =>
    rw [hm] at halone
    obtain ⟨u, hu, -⟩ := halone
    rw [hu] at hstop
    rcases hstop with ⟨e', he', -⟩ | he' <;> cases he'

/-- **The table does not change what a match comes to** where there is no left recursion, at
whatever depths. -/
theorem memoized_accords (hb : registry.Blind) (keep : Bool) (depth n : Nat) :
    (accord registry limit).InStep (applyKeyed (memoized (φ := φ) keep) registry limit depth)
      (applyKeyed (strict (φ := ψ)) registry limit n) := by
  induction depth generalizing n with
  | zero => exact fun _ _ _ _ _ _ _ _ _ => .inl ⟨_, rfl, rfl⟩
  | succ depth ih =>
    cases n with
    | zero => exact fun _ _ _ _ _ _ _ _ _ => .inr (.inl (.inl ⟨_, rfl, rfl⟩))
    | succ n =>
      intro f d o r args s t hr hl
      have hpos : (t.marked (r.call d o args)).pos = s.pos := hl.pos.symm
      refine memoized_accords_strict hl (fun h => ?_) ?_ (fun v stop hy => ?_)
        fun v t' ht' r' hr' => ?_
      · rw [hl.pos]
        exact straight_of_strict (n := n + 1) hb hr h
      · exact Coupling.runBody_of_rules registry (fun _ => trivial) (ih n) f d o r _ _ _
          (Abreast.entered hl)
      · exact hy.accords hr hpos rfl
      · obtain rfl : r = r' := Option.some.inj (hr.symm.trans hr')
        have hplain := plainBody_follows_strict registry limit n f (s.pos, r.call d o args) r hpos
        have ht' : runBody _ registry f (r.call d o args).dispatch (r.call d o args).owner r
          (r.call d o args).args _ = _ := ht'
        rw [ht'] at hplain
        obtain ⟨u, hu, hup⟩ := hplain
        exact ⟨n, u, hu, fun _ => hup.symm⟩

/-! ### Whatever is applied -/

variable (registry limit) in
/-- What a keyed match keeps its table fit for. -/
def trust : Upkeep φ where
  fit f m := Verbatim registry limit f m ∧ ∀ x, Straight registry limit f x → m.Idle x
  about f x := Straight registry limit f x
  sub := by
    rintro f m m' ⟨hv, hidle⟩ hsub
    refine ⟨fun x v stop a hd hx => ?_, fun x hx met ha => ?_⟩
    · rcases hsub x hx with he | he
      · exact hv x v stop a (he.symm.trans hd) hx
      · cases he.symm.trans hd
    · rcases hsub x hx with he | he
      · exact hidle x hx met (he.symm.trans ha)
      · cases he.symm.trans ha

/-- An application without left recursion has a strict match beside it that is not stopped. -/
theorem trust_straight (hb : registry.Blind) {keep : Bool} {depth : Nat} {d o : Grammar} {r : Rule}
    {args : List Value} {s' : State φ} {v : Option Value} (hr : o.rule? r.name = some r)
    (hx : Straight registry limit f (s.pos, r.call d o args))
    (hs : (trust registry limit).fit f s.memo)
    (hm : applyKeyed (memoized keep) registry limit depth f d o r args s = .ok (v, s')) :
    (trust registry limit).fit f s'.memo := by
  obtain ⟨r', n, hr', hstop⟩ := (straight_iff_keyed hb).1 hx
  cases hr.symm.trans hr'
  have hstop : ¬ Stopped (applyKeyed strict registry limit n f d o r (Value.signatures args)
      ⟨s.pos, .empty, ()⟩) := hstop
  rw [applyKeyed_signatures] at hstop
  have hbeside : Abreast registry limit f s (⟨s.pos, .empty, ()⟩ : State Unit) :=
    ⟨rfl, hs.1, fun hx ha => absurd ha (hs.2 _ hx _)⟩
  rcases memoized_accords hb keep depth n f d o r args s ⟨s.pos, .empty, ()⟩ hr hbeside with
    ⟨e, he, -⟩ | hn | ⟨e, he, -⟩ | ⟨a, b, ha, -, hab⟩
  · cases hm.symm.trans he
  · exact absurd hn hstop
  · cases hm.symm.trans he
  · cases hm.symm.trans ha
    refine ⟨hab.like.tables.verbatim, fun x hx met ha => ?_⟩
    have hmark := hab.like.tables.active hx ha
    rw [hab.memo] at hmark
    simp at hmark

/-- **Whatever is applied leaves a table that can be trusted**, left-recursive or not. -/
theorem Trusted.application (hb : registry.Blind) {keep : Bool} {depth : Nat} {d o : Grammar}
    {r : Rule} {args : List Value} {st st' : State φ} {v : Option Value}
    (h : Trusted registry limit f st.memo) (hr : o.rule? r.name = some r)
    (happ : applyDepth (memoized keep) registry limit depth f d o r args st = .ok (v, st')) :
    Trusted registry limit f st'.memo := by
  obtain ⟨w, hm, hw⟩ := h.faithful.exists_verbatim hb
  have hidle : ∀ x, Straight registry limit f x → w.Idle x :=
    fun x hx met ha => h.idle hx met (hm.active_iff.2 ha)
  have hkeyed := memoized_keyed hb (.same φ) keep limit depth f d o r args args st
    { st with memo := w } rfl ⟨rfl, hm, rfl⟩
  rw [happ] at hkeyed
  obtain ⟨⟨v', s'⟩, hs, hv⟩ := hkeyed
  have hinstep : (trust registry limit).coupling.InStep
      (applyKeyed (memoized (φ := φ) keep) registry limit depth)
      (applyKeyed (memoized keep) registry limit depth) :=
    (trust registry limit).rules (fun _ _ _ _ _ _ _ _ _ => trust_straight hb) depth
  have hfit := hinstep f d o r args { st with memo := w } { st with memo := w } hr rfl ⟨hw, hidle⟩
    v' s' hs
  exact ⟨hfit.1.faithful hb hv.state.tables,
    fun hx met ha => hfit.2 _ hx met (hv.state.tables.active_iff.1 ha)⟩

/-! ### Branches -/

/-- **An expression is evaluated through the table as it is strictly**, unless it is cut off or
given up. -/
theorem Expr.eval_accords (hb : registry.Blind) (keep : Bool) (depth n : Nat) (e : Expr)
    (ctx : Context) (scope : Scope) (hl : Abreast registry limit ctx.frame s t) :
    Accords (fun (a : Reply φ) (b : Reply ψ) =>
        Together (Abreast registry limit ctx.frame) t.memo a.split b.split)
      (e.eval (applyKeyed (memoized keep) registry limit depth) registry ctx scope s)
      (e.eval (applyKeyed strict registry limit n) registry ctx scope t) := by
  have hstep : (accord registry limit).InStep
      (applyKeyed (memoized (φ := φ) keep) registry limit depth)
      (applyKeyed (strict (φ := ψ)) registry limit n) := memoized_accords hb keep depth n
  have hcalls := Coupling.grounded registry (fun _ => trivial) hstep
  exact .of_view (hcalls.eval e ctx (Coupling.permitted_grounded (fun _ => trivial) _ _ _) hl)

/-- **Evaluations that come to the same** up to some names of the scope and to the bits of NaNs: to
the same value at the same position, or to the same error. Nothing is said where one of them is cut
off for its depth. -/
def SameBut (names : List String) (m : Except Halt (Reply φ)) (n : Except Halt (Reply ψ)) : Prop :=
  Limited m ∨ Limited n ∨
    TracksExcept (fun _ => False) (fun a b => Option.Rel Value.Alike a.value b.value ∧
      b.state.pos = a.state.pos ∧ a.scope.signature.Keeps names b.scope.signature) m n

namespace SameBut

variable {names : List String} {χ : Type} {m : Except Halt (Reply φ)} {n : Except Halt (Reply ψ)}

omit [Account φ] [Account ψ] in
/-- Evaluations that accord with one and the same strict one come to the same. -/
theorem of_accords {like : State φ → State χ → Prop} {like' : State ψ → State χ → Prop}
    {u u' : Memo χ} {b : Except Halt (Reply χ)} (hb : ¬ Stopped b)
    (hpos : ∀ s t, like s t → s.pos = t.pos) (hpos' : ∀ s t, like' s t → s.pos = t.pos)
    (h : Accords (fun a b => Together like u a.split b.split) m b)
    (h' : Accords (fun a b => Together like' u' a.split b.split) n b) : SameBut names m n := by
  rcases h with h | h | ⟨e, rfl, rfl⟩ | ⟨a, b, rfl, rfl, hab⟩
  · exact .inl h
  · exact absurd h hb
  · rcases h' with h' | h' | ⟨e', rfl, he⟩ | ⟨a', b', -, he, -⟩
    · exact .inr (.inl h')
    · exact absurd h' hb
    · cases he
      exact .inr (.inr (.inr rfl))
    · cases he
  · rcases h' with h' | h' | ⟨e', rfl, he⟩ | ⟨a', b', rfl, he, hab'⟩
    · exact .inr (.inl h')
    · exact absurd h' hb
    · cases he
    · cases he
      obtain ⟨hv, hscope⟩ := Prod.mk.inj (hab.same.trans hab'.same.symm)
      refine .inr (.inr ⟨a', rfl, ?_, ?_, fun x _ => by rw [hscope]⟩)
      · rw [hv]
        exact Value.rel_alike_iff.2 rfl
      · exact (hpos' _ _ hab'.like).trans (hpos _ _ hab.like).symm

/-- Evaluations come to the same if keyed ones do that they do not differ from. -/
theorem of_keyed {R : Rendering φ ψ} {m' n' : Except Halt (Reply ψ)} {n : Except Halt (Reply φ)}
    (h : SameBut names m' n') (hm : TracksExcept (fun _ => False) (Reply.Alike R) m m')
    (hn : TracksExcept (fun _ => False) (Reply.Alike R) n n') : SameBut names m n := by
  have hlimit {m : Except Halt (Reply φ)} {m' : Except Halt (Reply ψ)}
      (hm : TracksExcept (fun _ => False) (Reply.Alike R) m m') (hl : Limited m') : Limited m := by
    obtain ⟨e, rfl, he⟩ := hl
    cases m with
    | error e' => cases hm.resolve_left id; exact ⟨e, rfl, he⟩
    | ok a => obtain ⟨b, hb, -⟩ := hm; cases hb
  rcases h with h | h | h
  · exact .inl (hlimit hm h)
  · exact .inr (.inl (hlimit hn h))
  refine .inr (.inr ?_)
  cases m with
  | error e =>
    cases hm.resolve_left id
    cases n with
    | error e' => cases (hn.resolve_left id).symm.trans (h.resolve_left id); exact .inr rfl
    | ok b => obtain ⟨b', rfl, -⟩ := hn; cases h.resolve_left id
  | ok a =>
    obtain ⟨a', rfl, ha⟩ := hm
    obtain ⟨b', rfl, hv, hpos, hscope⟩ := h
    cases n with
    | error e => cases hn.resolve_left id
    | ok b =>
      obtain ⟨b'', hb', hb⟩ := hn
      cases hb'
      refine ⟨b, rfl, ?_, ?_, fun x hx => ?_⟩
      · exact Value.rel_alike_trans (Value.rel_alike_trans ha.value hv)
          (Value.rel_alike_symm hb.value)
      · rw [hb.state.pos, hpos, ha.state.pos]
      · rw [show b.scope.signature = _ from hb.scope, show a.scope.signature = _ from ha.scope]
        exact hscope x hx

omit [Account φ] in
/-- What comes to the same is tracked by what tracks it. -/
theorem tracks {n n' : Except Halt (Reply φ)} (h : SameBut [] m n)
    (h' : Tracks False (Reply.Under (Scope.Keeps names)) n n') : SameBut names m n' := by
  rcases h with h | ⟨e, rfl, hl⟩ | h
  · exact .inl h
  · exact .inr (.inl ⟨e, h'.resolve_left id, hl⟩)
  · refine .inr (.inr ?_)
    cases m with
    | error e =>
      obtain rfl := h.resolve_left id
      exact h'
    | ok a =>
      obtain ⟨b, rfl, hv, hpos, hscope⟩ := h
      obtain ⟨c, rfl, hc⟩ := h'
      obtain ⟨hkeeps⟩ := hc
      refine ⟨_, rfl, hv, hpos, fun x hx => ?_⟩
      rw [← hscope x (by simp), Scope.get?_signature, Scope.get?_signature, hkeeps x hx]

end SameBut

/-- **What is evaluated without left recursion** leaves a faithful table, whatever is under way. -/
theorem Faithful.eval (hb : registry.Blind) {keep : Bool} {depth n : Nat} {e : Expr}
    {ctx : Context} {scope : Scope} {st : State φ} {r : Reply φ}
    (h : Faithful registry limit ctx.frame st.memo)
    (hs : ¬ Stopped (e.eval (applyDepth strict registry limit n) registry ctx scope st))
    (he : e.eval (applyDepth (memoized keep) registry limit depth) registry ctx scope st = .ok r) :
    Faithful registry limit ctx.frame r.state.memo := by
  obtain ⟨w, hm, hw⟩ := h.exists_verbatim hb
  have hkeyed := Expr.eval_alike hb (memoized_keyed hb (.same φ) keep limit depth) e ctx scope scope
    st { st with memo := w } rfl ⟨rfl, hm, rfl⟩
  have hstrict := Expr.eval_alike hb (strict_keyed hb (.same φ) limit n) e ctx scope scope st
    { st with memo := w } rfl ⟨rfl, hm, rfl⟩
  rw [he] at hkeyed
  obtain ⟨r', he', hr⟩ := hkeyed
  have hbeside : Abreast registry limit ctx.frame { st with memo := w } { st with memo := w } :=
    ⟨rfl, hw, fun _ => id⟩
  rcases Expr.eval_accords hb keep depth n e ctx scope hbeside with ⟨e, hx, -⟩ | hx | ⟨e, hx, -⟩ |
    ⟨a, b, ha, -, hab⟩
  · cases he'.symm.trans hx
  · exact absurd ((Stopped.of_alike hstrict).2 hx) hs
  · cases he'.symm.trans hx
  · cases he'.symm.trans ha
    exact hab.like.tables.verbatim.faithful hb hr.state.tables

namespace Expr

/-- A choice goes on after an alternative that failed, at the same place and in the scope that it
left. -/
theorem choice_eval_of_failed {apply : Applier φ} {ctx : Context} {e : Expr} {es : List Expr}
    {scope : Scope} {st : State φ} {r : Reply φ} (he : e.eval apply registry ctx scope st = .ok r)
    (hf : r.value = none) :
    (choice (e :: es)).eval apply registry ctx scope st =
      (choice es).eval apply registry ctx r.scope (r.state.moveTo st.pos) := by
  rw [eval, eval, evalChoice, he]
  obtain ⟨v, scope', st'⟩ := r
  cases hf
  rfl

/-- An alternative of a choice is stopped only if the choice is. -/
theorem not_stopped_first {apply : Applier φ} {ctx : Context} {e : Expr} {es : List Expr}
    {scope : Scope} {st : State φ}
    (h : ¬ Stopped ((choice (e :: es)).eval apply registry ctx scope st)) :
    ¬ Stopped (e.eval apply registry ctx scope st) := by
  intro hx
  refine h ?_
  rw [eval, evalChoice]
  exact hx.bind _

/-- What a failed alternative leaves in the table of a keyed match makes no difference. -/
theorem choice_sameBut_keyed (hb : registry.Blind) {keep : Bool} {depth n : Nat} {ctx : Context}
    {e : Expr} {es : List Expr} {scope : Scope} {st : State φ} {r : Reply φ}
    (ht : Verbatim registry limit ctx.frame st.memo)
    (hs : ¬ Stopped ((choice (e :: es)).eval (applyKeyed strict registry limit n) registry ctx
      scope st))
    (he : e.eval (applyKeyed (memoized keep) registry limit depth) registry ctx scope st = .ok r)
    (hf : r.value = none) :
    SameBut []
      ((choice (e :: es)).eval (applyKeyed (memoized keep) registry limit depth) registry ctx
        scope st)
      ((choice es).eval (applyKeyed (memoized keep) registry limit depth) registry ctx
        r.scope st) := by
  have hfirst := eval_accords hb keep depth n e ctx scope (s := st) (t := st)
    ⟨rfl, ht, fun _ => id⟩
  rcases hfirst with ⟨h, hx, -⟩ | hx | ⟨h, hx, -⟩ | ⟨a, b, ha, hb', hab⟩
  · cases he.symm.trans hx
  · exact absurd hx (not_stopped_first hs)
  · cases he.symm.trans hx
  · cases he.symm.trans ha
    obtain ⟨v, scope', t⟩ := b
    obtain ⟨hsame, hlike, hmemo⟩ := hab
    obtain ⟨rfl, rfl⟩ := Prod.mk.inj hsame
    rw [choice_eval_of_failed he hf]
    rw [choice_eval_of_failed hb' hf] at hs
    -- the strict match has the table that it started with, so it goes on beside either
    have hafter : Abreast registry limit ctx.frame (r.state.moveTo st.pos) (t.moveTo st.pos) :=
      ⟨rfl, hlike.tables⟩
    have hbefore : Abreast registry limit ctx.frame st (t.moveTo st.pos) :=
      ⟨rfl, ht, fun _ h => by rw [State.moveTo, show t.memo = st.memo from hmemo]; exact h⟩
    exact .of_accords hs (fun _ _ h => h.pos) (fun _ _ h => h.pos)
      (eval_accords hb keep depth n (choice es) ctx r.scope hafter)
      (eval_accords hb keep depth n (choice es) ctx r.scope hbefore)

/-- Nor in that of any other. -/
theorem choice_sameBut (hb : registry.Blind) {keep : Bool} {depth n : Nat} {ctx : Context}
    {e : Expr} {es : List Expr} {scope : Scope} {st : State φ} {r : Reply φ}
    (ht : Faithful registry limit ctx.frame st.memo)
    (hs : ¬ Stopped ((choice (e :: es)).eval (applyDepth strict registry limit n) registry ctx
      scope st))
    (he : e.eval (applyDepth (memoized keep) registry limit depth) registry ctx scope st = .ok r)
    (hf : r.value = none) :
    SameBut []
      ((choice (e :: es)).eval (applyDepth (memoized keep) registry limit depth) registry ctx
        scope st)
      ((choice es).eval (applyDepth (memoized keep) registry limit depth) registry ctx
        r.scope st) := by
  obtain ⟨w, hm, hw⟩ := ht.exists_verbatim hb
  let st' : State φ := { st with memo := w }
  have halike : st.Alike (.same φ) st' := ⟨rfl, hm, rfl⟩
  have hrules := memoized_keyed hb (.same φ) keep limit depth
  have hstrict := eval_alike hb (strict_keyed hb (.same φ) limit n) (choice (e :: es)) ctx scope
    scope st st' rfl halike
  have hfirst := eval_alike hb hrules e ctx scope scope st st' rfl halike
  rw [he] at hfirst
  obtain ⟨r', he', hr⟩ := hfirst
  have hf' : r'.value = none := by
    have hv := hr.value
    rw [hf] at hv
    generalize r'.value = v at hv
    cases hv
    rfl
  have hw' : Verbatim registry limit ctx.frame st'.memo := hw
  have hkeyed := choice_sameBut_keyed hb hw'
    (fun hx => hs ((Stopped.of_alike hstrict).2 hx)) he' hf'
  exact hkeyed.of_keyed (eval_alike hb hrules _ ctx scope scope st st' rfl halike)
    (eval_alike hb hrules _ ctx r.scope r'.scope st st' hr.scope halike)

/-- **After an alternative that failed, a choice is the rest of the choice**, where there is no left
recursion and the functions of actions cannot tell NaNs apart: from the scope that the failed
alternative leaves, which differs only at names that it binds; and so from the scope before, if the
rest reads none of these names. In the same way a negated lookahead and a failing round of a
repetition leave all names alone that they do not bind.

The table has to be faithful, as all tables are: whatever is evaluated without left recursion leaves
such a table so, and where an application begins it is so, whatever was applied before, left-recursive
or not. -/
theorem choice_of_failed (keep : Bool) (registry : Registry) (hb : registry.Blind)
    (limit depth n : Nat) (ctx : Context) (e : Expr) (es : List Expr) (scope : Scope) (st : State φ)
    (r : Reply φ) (ht : Faithful registry limit ctx.frame st.memo)
    (hs : ¬ Stopped ((choice (e :: es)).eval (applyDepth strict registry limit n) registry ctx
      scope st))
    (he : e.eval (applyDepth (memoized keep) registry limit depth) registry ctx scope st = .ok r)
    (hf : r.value = none) :
    scope.Keeps (boundBy e.subexprs) r.scope ∧
      SameBut []
        ((choice (e :: es)).eval (applyDepth (memoized keep) registry limit depth) registry ctx
          scope st)
        ((choice es).eval (applyDepth (memoized keep) registry limit depth) registry ctx
          r.scope st) ∧
      ((∀ x ∈ readBy (subexprsAll es), x ∉ boundBy e.subexprs) →
        SameBut (boundBy e.subexprs)
          ((choice (e :: es)).eval (applyDepth (memoized keep) registry limit depth) registry ctx
            scope st)
          ((choice es).eval (applyDepth (memoized keep) registry limit depth) registry ctx
            scope st)) ∧
      (∀ (body : Expr) (scope : Scope) (st : State φ) (r : Reply φ),
        (lookahead true body).eval (applyDepth (memoized keep) registry limit depth) registry ctx
            scope st = .ok r ∨
          body.eval (applyDepth (memoized keep) registry limit depth) registry ctx scope st =
            .ok r ∧ r.value = none →
        scope.Keeps (boundBy body.subexprs) r.scope) ∧
      (∀ (e : Expr) (scope : Scope) (st : State φ) (r : Reply φ),
        Faithful registry limit ctx.frame st.memo →
        ¬ Stopped (e.eval (applyDepth strict registry limit n) registry ctx scope st) →
        e.eval (applyDepth (memoized keep) registry limit depth) registry ctx scope st = .ok r →
        Faithful registry limit ctx.frame r.state.memo) ∧
      ∀ (d o : Grammar) (r : Rule) (args : List Value) (st : State φ), o.rule? r.name = some r →
        Trusted registry limit ctx.frame st.memo →
        Faithful registry limit ctx.frame (st.entered (r.call d o args)).memo ∧
          ∀ v st', applyDepth (memoized keep) registry limit depth ctx.frame d o r args st =
            .ok (v, st') → Trusted registry limit ctx.frame st'.memo := by
  have hkeeps := eval_keeps he
  have hrest := choice_sameBut hb ht hs he hf
  refine ⟨hkeeps, hrest, fun hread => hrest.tracks ?_, ?_, fun e scope st r ht hs he =>
    ht.eval hb hs he, fun d o r args st hr ht => ⟨Memo.Every.begin ht.faithful, fun v st' happ =>
      ht.application hb hr happ⟩⟩
  · refine eval_tracks (choice es) ctx st ((Scoping.unread registry ?_)) hkeeps.symm
    intro x hx
    exact hread x (by simpa [readBy, subexprs, actions, Action.varsAll] using hx)
  · rintro body scope st r (h | ⟨h, -⟩)
    · simpa [boundBy, subexprs] using eval_keeps h
    · exact eval_keeps h

/-- Binds `x` to what the rule `a` matches, and fails unless a `b` follows. -/
def leak : Expr := .sequence [.bind "x" (.app "a"), .literal "b"]

/-- A grammar in which alternatives fail that have bound a name, and ones that have applied a rule
before the rule is asked for further down. -/
def leaky : Grammar :=
  Draft.freeze
    { name := "Leaky"
      rules := [
        { name := "start", body := .sequence [.choice [leak, .literal "a"], .action (.var "x")] },
        { name := "rest", body := .sequence [.choice [.literal "a"], .action (.var "x")] },
        { name := "deep", body := .choice [.sequence [.app "b", .literal "x"], .app "c"] },
        { name := "deepRest", body := .choice [.app "c"] },
        { name := "c", body := .app "b" },
        { name := "b", body := .app "a" },
        { name := "a", body := .literal "a" }] }

/-- The body of a rule of `leaky` on the input `ac`. -/
def leakyContext : Context :=
  { frame := { input := .ofString "ac" }, dispatch := leaky, owner := leaky }

/-- An expression evaluated there, at the start and in an empty scope. -/
def runLeaky (apply : Applier Furthest) (e : Expr) : Except Halt (Reply Furthest) :=
  e.eval apply .standard leakyContext [] (.start Account.empty)

/-- What can be seen of a reply: value, position and scope. -/
def outline (r : Reply Furthest) : Option Value × Nat × Scope := (r.value, r.state.pos, r.scope)

/-- **What a discarded branch has bound stays bound**, and is read later on; and where results are
kept, what it has applied may spare a match the depth that it would need otherwise. -/
theorem discarded_branch_shows :
    (runLeaky ({} : Engine).applier leak).map outline = .ok (none, 0, [("x", .string "a")]) ∧
      (runLeaky ({} : Engine).applier (.choice [leak, .literal "a"])).map outline =
        .ok (some (.string "a"), 1, [("x", .string "a")]) ∧
      (runLeaky ({} : Engine).applier (.choice [.literal "a"])).map outline =
        .ok (some (.string "a"), 1, []) ∧
      (runLeaky ({} : Engine).applier (.not leak)).map outline =
        .ok (some .nil, 0, [("x", .string "a")]) ∧
      (runLeaky ({} : Engine).applier (.many leak)).map outline =
        .ok (some (.list []), 0, [("x", .string "a")]) ∧
      ({} : Engine).matchRule leaky "start" (.ofString "ac") [] =
        .ok (.success (.string "a") { input := .ofString "ac", pos := 1 }) ∧
      ({} : Engine).matchRule leaky "rest" (.ofString "ac") [] =
        .error (.undefinedVariable "x") ∧
      ({ options := { maxDepth := 3 } } : Engine).matchRule leaky "deep" (.ofString "ac") [] =
        .ok (.success (.string "a") { input := .ofString "ac", pos := 1 }) ∧
      ({ options := { maxDepth := 3 } } : Engine).matchRule leaky "deepRest" (.ofString "ac") [] =
        .error (.recursionLimit 3) := by
  refine ⟨?_, ?_, ?_, ?_, ?_, ?_, ?_, ?_, ?_⟩ <;> decide +kernel

/-- A left-recursive rule beside them. -/
def sum : Rule :=
  { name := "sum"
    body := .choice [.sequence [.app "sum", .literal "+", .app "a"], .app "a"] }

/-- An heir of the grammar with that rule. -/
def leakySums : Grammar := Draft.freeze { name := "LeakySums", parent := some leaky, rules := [sum] }

/-- The body of a rule of the heir on the input `a+ac`. -/
def sumsContext : Context :=
  { frame := { input := .ofString "a+ac" }, dispatch := leakySums, owner := leakySums }

/-- The left-recursive rule is applied at the start, through an empty table. -/
def afterSum : Except Halt (Answer Furthest) :=
  applyDepth (memoized true) .standard 8 8 sumsContext.frame leakySums leakySums sum []
    (.start Account.empty)

/-- Then an expression is evaluated at its last `a`. -/
def runAfterSum (apply : Applier Furthest) (e : Expr) : Except Halt (Reply Furthest) :=
  afterSum >>= fun a => e.eval apply .standard sumsContext [] (a.2.moveTo 2)

theorem runAfterSum_eq {v : Option Value} {st : State Furthest} (h : afterSum = .ok (v, st))
    (apply : Applier Furthest) (e : Expr) :
    runAfterSum apply e = e.eval apply .standard sumsContext [] (st.moveTo 2) := by
  rw [runAfterSum, h]
  rfl

/-- The table holds a result of a left-recursive rule. The rule that the failed alternative has
applied is asked for again, and reads no name. -/
theorem choice_of_failed_leak :
    ∃ v st r, afterSum = .ok (v, st) ∧
      (st.memo.get? (0, sum.call leakySums leakySums [])).isSome = true ∧
      Faithful .standard 8 sumsContext.frame (st.moveTo 2).memo ∧
      leak.eval (applyDepth (memoized true) .standard 8 8) .standard sumsContext [] (st.moveTo 2) =
        .ok r ∧ r.value = none ∧
      ¬ Stopped ((choice [leak, .app "c"]).eval (applyDepth strict .standard 8 8) .standard
        sumsContext [] (st.moveTo 2)) ∧
      Scope.Keeps ["x"] [] r.scope ∧
      SameBut ["x"]
        ((choice [leak, .app "c"]).eval (applyDepth (memoized true) .standard 8 8) .standard
          sumsContext [] (st.moveTo 2))
        ((choice [.app "c"]).eval (applyDepth (memoized true) .standard 8 8) .standard
          sumsContext [] (st.moveTo 2)) := by
  have hsum : (afterSum.map fun a =>
      (a.2.memo.get? (0, sum.call leakySums leakySums [])).isSome) = .ok true := by decide +kernel
  have hstrict : (runAfterSum (applyDepth strict .standard 8 8)
      (.choice [leak, .app "c"])).isOk = true := by decide +kernel
  have hleak : (runAfterSum (applyDepth (memoized true) .standard 8 8) leak).map outline =
      .ok (none, 2, [("x", .string "a")]) := by decide +kernel
  cases hafter : afterSum with
  | error h =>
    rw [hafter] at hsum
    cases hsum
  | ok a =>
    obtain ⟨v, st⟩ := a
    rw [hafter] at hsum
    rw [runAfterSum_eq hafter] at hstrict hleak
    have ht : Trusted .standard 8 sumsContext.frame st.memo :=
      Trusted.application Registry.standard_blind .empty (by decide +kernel) hafter
    have hs : ¬ Stopped ((choice [leak, .app "c"]).eval (applyDepth strict .standard 8 8) .standard
        sumsContext [] (st.moveTo 2)) := by
      rintro (⟨h, hx, -⟩ | hx) <;> rw [hx] at hstrict <;> cases hstrict
    cases hr : leak.eval (applyDepth (memoized true) .standard 8 8) .standard sumsContext []
        (st.moveTo 2) with
    | error h =>
      rw [hr] at hleak
      cases hleak
    | ok r =>
      rw [hr] at hleak
      have hf : r.value = none := congrArg Prod.fst (Except.ok.inj hleak)
      obtain ⟨hkeeps, -, hunread, -⟩ := choice_of_failed true .standard Registry.standard_blind
        8 8 8 sumsContext leak [.app "c"] [] (st.moveTo 2) r ht.faithful hs hr hf
      exact ⟨v, st, r, rfl, Except.ok.inj hsum, ht.faithful, hr, hf, hs, hkeeps,
        hunread (by decide)⟩

end Expr

end Packrat
