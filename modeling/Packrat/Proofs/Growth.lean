import Packrat.Proofs.Heights

/-!
# How a seed grows

A left-recursive application has a head, which is what was begun first and is come upon again. The
head grows: its body runs again and again, each time on top of what it came to before. Other
applications may belong to the recursion; they begin and end within every round, and are forgotten
before the next. All that is applied besides is without left recursion.

If the body comes to a step from the seed, and to what it came to in the first place where there is
no such step, then growth is a fold to the left.

An application may also be come upon when it is finished. Then it is no head but a place where what
belongs to it begins, and the same is said of that.

* `Folds`, `Fold`: the fold.
* `Ready`, `Course`: the states in which a recursion goes on, and what it does to the table.
* `Follow`: computations that belong to the recursion.
* `Hit`, `Round`: what coming upon the head amounts to, and what a run of the body does.
* `head_follows`, `Follow.pass`: the head is come upon, and what belongs to it passes that on.
* `grow_folds`, `memoized_folds`: growth is the fold, and so is an application of the head.
-/

namespace Packrat

/-- **A fold to the left**: as long as a step from the value and the end so far comes to something
that ends further on, it goes on from there. -/
inductive Folds (step : Value → Nat → Option (Value × Nat) → Prop) :
    Value → Nat → Value → Nat → Prop
  | spent {v : Value} {e : Nat} : step v e none → Folds step v e v e
  | stay {v w : Value} {e e' : Nat} : step v e (some (w, e')) → e' ≤ e → Folds step v e v e
  | more {v w x : Value} {e e' stop : Nat} : step v e (some (w, e')) → e < e' →
      Folds step w e' x stop → Folds step v e x stop

/-- A fold comes to one thing only, if each step does. -/
theorem Folds.unique {step : Value → Nat → Option (Value × Nat) → Prop} {v x x' : Value}
    {e stop stop' : Nat} (h : Folds step v e x stop) (h' : Folds step v e x' stop')
    (hstep : ∀ v e out out', step v e out → step v e out' → out = out') :
    x = x' ∧ stop = stop' := by
  induction h with
  | spent hs =>
    cases h' with
    | spent _ | stay _ _ => exact ⟨rfl, rfl⟩
    | more hs' _ _ => cases hstep _ _ _ _ hs hs'
  | stay hs hle =>
    cases h' with
    | spent _ | stay _ _ => exact ⟨rfl, rfl⟩
    | more hs' hlt _ =>
      cases hstep _ _ _ _ hs hs'
      omega
  | more hs hlt _ ih =>
    cases h' with
    | spent hs' => cases hstep _ _ _ _ hs hs'
    | stay hs' hle =>
      cases hstep _ _ _ _ hs hs'
      omega
    | more hs' _ hrest =>
      cases hstep _ _ _ _ hs hs'
      exact ih hrest

/-- **What is folded** from what there is to start with; nothing comes of nothing. -/
inductive Fold (starts : Option (Value × Nat) → Prop)
    (step : Value → Nat → Option (Value × Nat) → Prop) : Option (Value × Nat) → Prop
  | fails : starts none → Fold starts step none
  | folds {v₀ w : Value} {e₀ stop : Nat} : starts (some (v₀, e₀)) → Folds step v₀ e₀ w stop →
      Fold starts step (some (w, stop))

/-- Outcomes that end at the same place, with values that differ in the bits of NaNs at most. -/
def AlikeEnds : Option (Value × Nat) → Option (Value × Nat) → Prop :=
  Option.Rel fun x y => x.1.Alike y.1 ∧ x.2 = y.2

theorem AlikeEnds.refl (out : Option (Value × Nat)) : AlikeEnds out out := by
  cases out with
  | none => exact .none
  | some x => exact .some ⟨rfl, rfl⟩

theorem AlikeEnds.symm {out out' : Option (Value × Nat)} (h : AlikeEnds out out') :
    AlikeEnds out' out := by
  cases h with
  | none => exact .none
  | some h => exact .some ⟨h.1.symm, h.2.symm⟩

theorem AlikeEnds.trans {out out' out'' : Option (Value × Nat)} (h : AlikeEnds out out')
    (h' : AlikeEnds out' out'') : AlikeEnds out out'' := by
  cases h with
  | none => exact h'
  | some h =>
    cases h' with
    | some h' => exact .some ⟨h.1.trans h'.1, h.2.trans h'.2⟩

theorem AlikeEnds.isSome {out out' : Option (Value × Nat)} (h : AlikeEnds out out') :
    out.isSome = out'.isSome := by
  cases h <;> rfl

/-- Values that are alike, and where they end. -/
theorem AlikeEnds.ofValue {v w : Option Value} (h : Option.Rel Value.Alike v w) (stop : Nat) :
    AlikeEnds (v.map fun x => (x, stop)) (w.map fun x => (x, stop)) := by
  cases h with
  | none => exact .none
  | some h => exact .some ⟨h, rfl⟩

section Correspondence

variable {starts starts' : Option (Value × Nat) → Prop}
  {step step' : Value → Nat → Option (Value × Nat) → Prop}
  (hstep : ∀ v v' e out, v.Alike v' → step v e out → ∃ out', step' v' e out' ∧ AlikeEnds out out')

include hstep

/-- Folds over steps that correspond come to what corresponds. -/
theorem Folds.alike {v v' w : Value} {e stop : Nat} (hv : v.Alike v')
    (h : Folds step v e w stop) : ∃ w', w.Alike w' ∧ Folds step' v' e w' stop := by
  induction h generalizing v' with
  | spent hs =>
    obtain ⟨out', hs', hout⟩ := hstep _ _ _ _ hv hs
    cases hout
    exact ⟨v', hv, .spent hs'⟩
  | stay hs hle =>
    obtain ⟨out', hs', hout⟩ := hstep _ _ _ _ hv hs
    cases hout with
    | @some _ y hxy =>
      obtain ⟨w', e'⟩ := y
      cases hxy.2
      exact ⟨v', hv, .stay hs' hle⟩
  | more hs hlt _ ih =>
    obtain ⟨out', hs', hout⟩ := hstep _ _ _ _ hv hs
    cases hout with
    | @some _ y hxy =>
      obtain ⟨w', e'⟩ := y
      obtain ⟨hw, rfl⟩ := hxy
      obtain ⟨x', hx, hrest⟩ := ih hw
      exact ⟨x', hx, .more hs' hlt hrest⟩

/-- So they do with what they start from. -/
theorem Fold.alike (hstart : ∀ out, starts out → ∃ out', starts' out' ∧ AlikeEnds out out')
    {out : Option (Value × Nat)} (h : Fold starts step out) :
    ∃ out', Fold starts' step' out' ∧ AlikeEnds out out' := by
  cases h with
  | fails hs =>
    obtain ⟨out', hs', hout⟩ := hstart _ hs
    cases hout
    exact ⟨none, .fails hs', .none⟩
  | folds hs hfolds =>
    obtain ⟨out', hs', hout⟩ := hstart _ hs
    cases hout with
    | @some _ y hxy =>
      obtain ⟨v₀, e₀⟩ := y
      obtain ⟨hv, rfl⟩ := hxy
      obtain ⟨w', hw, hfolds'⟩ := hfolds.alike hstep hv
      exact ⟨some (w', _), .folds hs' hfolds', .some ⟨hw, rfl⟩⟩

end Correspondence

/-- What is folded is one thing only, if that is so of what there is to start with and of each
step. -/
theorem Fold.unique {starts : Option (Value × Nat) → Prop}
    {step : Value → Nat → Option (Value × Nat) → Prop} {out out' : Option (Value × Nat)}
    (h : Fold starts step out) (h' : Fold starts step out')
    (hstart : ∀ out out', starts out → starts out' → out = out')
    (hstep : ∀ v e out out', step v e out → step v e out' → out = out') : out = out' := by
  cases h with
  | fails hs =>
    cases h' with
    | fails _ => rfl
    | folds hs' _ => cases hstart _ _ hs hs'
  | folds hs hfolds =>
    cases h' with
    | fails hs' => cases hstart _ _ hs hs'
    | folds hs' hfolds' =>
      cases hstart _ _ hs hs'
      obtain ⟨rfl, rfl⟩ := hfolds.unique hfolds' hstep
      rfl

/-! ### Running bodies beside the head of a recursion -/

variable {registry : Registry} {limit : Nat} {S : Grammar → Target → Prop} {f : Frame}
  {x : Spot} {others : List Spot} {p : Nat}

variable (registry limit S) in
/-- **A state in which the recursion may go on**: at the place where it began, with the entry of its
head `x` in the table, and without entries for the other applications that belong to it. -/
structure Ready (f : Frame) (x : Spot) (others : List Spot) (s : State Height) : Prop where
  pos : s.pos = x.1
  kept : Gauged registry limit S f s.memo .empty
  head : (∃ met, s.memo.get? x = some (.active met)) ∨
    ∃ v stop h, s.memo.get? x = some (.done v stop h)
  absent : ∀ z ∈ others, s.memo.get? z = none

variable (registry limit S) in
/-- **What the recursion does to the table**: the head is not begun again, the other applications
that belong to it are in the table only if they were begun, and all else is left alone, apart from
what is without left recursion. -/
structure Course (f : Frame) (x : Spot) (others : List Spot) (m m' : Memo Height) : Prop where
  kept : Gauged registry limit S f m' .empty
  apart (y : Spot) : ¬ y.In S → y ≠ x → y ∉ others → m'.get? y = m.get? y
  log : ∃ extra, m'.log.toList = m.log.toList ++ extra ∧ x ∉ extra ∧
    ∀ z ∈ others, m'.get? z = none ∨ z ∈ extra

/-- What is without left recursion does not get in the way. -/
theorem Course.spared {m m' m'' : Memo Height} (h : Course registry limit S f x others m m')
    (hx : ¬ x.In S) (ho : ∀ z ∈ others, ¬ z.In S) (hk : Gauged registry limit S f m'' .empty)
    (hs : Spared S m' m'') : Course registry limit S f x others m m'' where
  kept := hk
  apart y hy hyx hyo := (hs.get y hy).trans (h.apart y hy hyx hyo)
  log := by
    obtain ⟨extra, hlog, hxe, hoe⟩ := h.log
    obtain ⟨extra', hlog', hin⟩ := hs.log
    refine ⟨extra ++ extra', by rw [hlog', hlog, List.append_assoc], fun hmem => ?_, fun z hz => ?_⟩
    · exact (List.mem_append.1 hmem).elim hxe fun hmem => hx (hin x hmem)
    · rw [hs.get z (ho z hz)]
      exact (hoe z hz).imp_right (List.mem_append_left _)

/-- What an answer says: a value and where it ends, or neither. -/
def Answer.outcome {φ : Type} (r : Answer φ) : Option (Value × Nat) := r.1.map fun v => (v, r.2.pos)

/-- There is no entry, or one that says that the application failed. -/
def Barren (e : Option (Entry Height)) : Prop := e = none ∨ ∃ stop h, e = some (.done none stop h)

variable (registry limit S) in
/-- **Computations that belong to the recursion**: they keep to its course, and `P` says what they
come to, given the entry of the head before and after. If they fail while the head runs, so have the
other applications that belong to it. -/
structure Followed (f : Frame) (x : Spot) (others : List Spot)
    (P : Option (Entry Height) → Option (Value × Nat) → Option (Entry Height) → Prop)
    (s : State Height) (r : Answer Height) : Prop where
  course : Course registry limit S f x others s.memo r.2.memo
  comes : P (s.memo.get? x) r.outcome (r.2.memo.get? x)
  barren {met : Bool} : s.memo.get? x = some (.active met) → r.1 = none →
    ∀ z ∈ others, Barren (r.2.memo.get? z)

variable (registry limit S) in
/-- Such a computation, from whatever state the recursion may go on. -/
def Follow (f : Frame) (x : Spot) (others : List Spot)
    (P : Option (Entry Height) → Option (Value × Nat) → Option (Entry Height) → Prop)
    (run : Attempt Height) : Prop :=
  ∀ s r, Ready registry limit S f x others s → run s = .ok r →
    Followed registry limit S f x others P s r

/-- **The head is come upon again**: it fails while it runs, which is noted, and else gives what it
came to. -/
structure Hit (e : Option (Entry Height)) (out : Option (Value × Nat))
    (e' : Option (Entry Height)) : Prop where
  active {met : Bool} : e = some (.active met) → out = none ∧ e' = some (.active true)
  done {v : Option Value} {stop : Nat} {h : Height} : e = some (.done v stop h) →
    out = v.map (fun w => (w, stop)) ∧ e' = e

/-- **The body of the rule runs**: at first it comes to what the base comes to, and the head is met
on the way; on top of a seed it comes to what a step comes to, or if that fails to what the base
comes to. -/
structure Round (starts : Option (Value × Nat) → Prop)
    (step : Value → Nat → Option (Value × Nat) → Prop) (e : Option (Entry Height))
    (out : Option (Value × Nat)) (e' : Option (Entry Height)) : Prop where
  first {met : Bool} : e = some (.active met) → starts out ∧ e' = some (.active true)
  failed {stop : Nat} {h : Height} : e = some (.done none stop h) → starts out ∧ e' = e
  again {seed : Value} {stop : Nat} {h : Height} : e = some (.done (some seed) stop h) →
    e' = e ∧ ((out.isSome ∧ step seed stop out) ∨
      (step seed stop none ∧ ∀ first, starts first → out = first))

variable {keep : Bool}
  {P : Option (Entry Height) → Option (Value × Nat) → Option (Entry Height) → Prop}

/-- **The head itself** is found in the table. -/
theorem head_follows (depth : Nat) {d o : Grammar} {r : Rule}
    (hx : ¬ Spot.In S (p, r.call d o [])) :
    Follow registry limit S f (p, r.call d o []) [] Hit
      (applyKeyed (memoized keep) registry limit depth f d o r []) := by
  intro s q hs hq
  cases depth with
  | zero => cases hq
  | succ depth =>
    rw [applyKeyed_succ] at hq
    have hpos : s.pos = p := hs.pos
    rcases hs.head with ⟨met, hg⟩ | ⟨v, stop, h, hg⟩
    · rw [memoized_of_active (hpos ▸ hg)] at hq
      cases hq
      rw [hpos]
      refine ⟨⟨?_, fun y _ hy _ => ?_, [], by simp⟩, ⟨fun _ => ⟨rfl, ?_⟩, fun h => ?_⟩,
        fun _ _ _ hz => by cases hz⟩
      · exact hs.kept.set hx
      · rw [Memo.get?_set, if_neg hy]
      · rw [Memo.get?_set, if_pos rfl]
      · cases hg.symm.trans h
    · rw [memoized_of_done (hpos ▸ hg)] at hq
      cases hq
      refine ⟨⟨hs.kept, fun _ _ _ _ => rfl, [], (List.append_nil _).symm, by simp⟩,
        ⟨fun h => ?_, fun h => ⟨?_, rfl⟩⟩, fun _ _ _ hz => by cases hz⟩
      · cases hg.symm.trans h
      · cases hg.symm.trans h
        cases v <;> rfl

/-- What an application leaves in the table of itself, if it was not running. -/
theorem memoized_entry {φ : Type} [Account φ] {call : Call} {body : Attempt φ} {st st' : State φ}
    {v : Option Value} (hm : memoized keep f call body st = .ok (v, st'))
    (hidle : st.memo.Idle (st.pos, call)) {e : Entry φ}
    (he : st'.memo.get? (st.pos, call) = some e) :
    ∃ stop a, e = .done v stop a ∧ (v.isSome → stop = st'.pos) := by
  cases hg : st.memo.get? (st.pos, call) with
  | some entry =>
    cases entry with
    | active met => exact absurd hg (hidle met)
    | done w stop a =>
      rw [memoized_of_done hg] at hm
      cases hm
      cases hg.symm.trans he
      exact ⟨stop, a, rfl, fun hv => (if_pos hv).symm⟩
  | none =>
    rw [memoized_of_none hg] at hm
    obtain ⟨⟨w, ripe⟩, -, hm⟩ := bind_eq_ok hm
    cases hm
    rw [State.get?_left_self] at he
    split at he
    · cases he
      exact ⟨_, _, rfl, fun hv => (if_pos hv).symm⟩
    · cases he

/-- **An application that belongs to the recursion** passes on what its body comes to. -/
theorem Follow.pass {body : Attempt Height} {call : Call}
    (hb : Follow registry limit S f x [] P body) (hz : ¬ Spot.In S (x.1, call))
    (hzx : x ≠ (x.1, call)) :
    Follow registry limit S f x [(x.1, call)] P (memoized keep f call body) := by
  intro s q hs hq
  have hpos : s.pos = x.1 := hs.pos
  have hg : s.memo.get? (s.pos, call) = none := hpos ▸ hs.absent _ (.head _)
  have hown := fun e => memoized_entry (e := e) hq fun met hm => by cases hg.symm.trans hm
  have hbegin (y : Spot) (hy : y ≠ (x.1, call)) :
      (s.entered call).memo.get? y = s.memo.get? y := by
    rw [State.get?_entered, hpos, if_neg hy]
  cases hw : body (s.entered call) with
  | error h =>
    rw [memoized_of_error hg hw] at hq
    cases hq
  | ok wi =>
    obtain ⟨w, inside⟩ := wi
    have hready : Ready registry limit S f x [] (s.entered call) := by
      refine ⟨hpos, hs.kept.sub fun y hy => .inl ?_, ?_, fun _ h => by cases h⟩
      · exact hbegin y (by rintro rfl; exact hz hy)
      · rw [hbegin x hzx]
        exact hs.head
    obtain ⟨hcourse, hP, -⟩ := hb _ _ hready hw
    -- its own mark is as it was set when it began
    have hmark : inside.memo.get? (s.pos, call) = some (.active false) := by
      rw [hpos, hcourse.apart _ hz hzx.symm (by simp), State.get?_entered, hpos, if_pos rfl]
    have hmet : inside.memo.isLeftRecursive (s.pos, call) = false := by
      unfold Memo.isLeftRecursive
      rw [hmark]
    rw [memoized_of_settled hg hw (.inr hmet)] at hq
    cases hq
    have hleft (y : Spot) (hy : y ≠ (x.1, call)) :
        (s.left keep f call w inside).memo.get? y = inside.memo.get? y :=
      State.get?_left (hpos ▸ hy)
    refine ⟨⟨?_, fun y hy hyx hyo => ?_, ?_⟩, ?_, fun _ hv z hz => ?_⟩
    · refine hcourse.kept.sub fun y hy => .inl (hleft y ?_)
      rintro rfl
      exact hz hy
    · have hyz : y ≠ (x.1, call) := by simpa using hyo
      rw [hleft y hyz, hcourse.apart y hy hyx (by simp), hbegin y hyz]
    · obtain ⟨extra, hlog, hxe, -⟩ := hcourse.log
      refine ⟨(x.1, call) :: extra, ?_, by simp [hzx, hxe], fun z hz => .inr ?_⟩
      · show (s.left keep f call w inside).memo.log.toList = _
        rw [State.log_left, hlog]
        show (s.memo.begin (s.pos, call)).log.toList ++ extra = _
        rw [Memo.log_begin, Array.toList_push, hpos, List.append_assoc]
        rfl
      · rw [List.mem_singleton.1 hz]
        exact .head _
    · rw [← hbegin x hzx, hleft x hzx]
      have hout : Answer.outcome (w, s.left keep f call w inside) = Answer.outcome (w, inside) := by
        cases w <;> rfl
      rw [hout]
      exact hP
    · rw [List.mem_singleton.1 hz, ← hpos]
      cases he : (s.left keep f call w inside).memo.get? (s.pos, call) with
      | none => exact .inl rfl
      | some e =>
        obtain ⟨stop, a, rfl, -⟩ := hown e he
        cases (show w = none from hv)
        exact .inr ⟨stop, a, rfl⟩

/-- The same of an application at any depth. -/
theorem Follow.applied {depth : Nat} {d o : Grammar} {r : Rule}
    (hz : ¬ Spot.In S (x.1, r.call d o [])) (hzx : x ≠ (x.1, r.call d o []))
    (hb : ∀ n, Follow registry limit S f x [] P
      (runBody (applyKeyed (memoized keep) registry limit n) registry f d o r [])) :
    Follow registry limit S f x [(x.1, r.call d o [])] P
      (applyKeyed (memoized keep) registry limit depth f d o r []) := by
  cases depth with
  | zero =>
    intro s q _ hq
    cases hq
  | succ depth => exact (hb depth).pass hz hzx

/-! ### Growth -/

/-- **The table of a recursion**: its head has the place `mark` in the log and is not begun again,
and of the other applications that belong to it those are in the table that were begun after it. -/
def Memo.Rooted (m : Memo Height) (x : Spot) (others : List Spot) (mark : Nat) : Prop :=
  ∃ before extra, m.log.toList = before ++ x :: extra ∧ before.length = mark ∧ x ∉ extra ∧
    ∀ z ∈ others, m.get? z = none ∨ z ∈ extra

/-- The recursion takes its course from where only its head has begun. -/
theorem Course.rooted {m m' : Memo Height} {before : List Spot}
    (h : Course registry limit S f x others m m') (hm : m.log.toList = before ++ [x]) :
    m'.Rooted x others before.length := by
  obtain ⟨extra, hlog, hx, ho⟩ := h.log
  exact ⟨before, extra, by rw [hlog, hm, List.append_assoc]; rfl, rfl, hx, ho⟩

/-- What was begun after the head is forgotten, and nothing else. -/
theorem Memo.Rooted.get?_forgetAfter {m : Memo Height} {mark : Nat} (h : m.Rooted x others mark) :
    (m.forgetAfter mark).get? x = m.get? x ∧ (∀ z ∈ others, (m.forgetAfter mark).get? z = none) ∧
      ∃ before, (m.forgetAfter mark).log.toList = before ++ [x] ∧ before.length = mark := by
  obtain ⟨before, extra, hlog, rfl, hxe, hoe⟩ := h
  have hdrop : m.log.toList.drop (before.length + 1) = extra := by
    rw [hlog, List.append_cons]
    exact List.drop_left' (by simp)
  refine ⟨?_, fun z hz => ?_, before, ?_, rfl⟩
  · rw [Memo.get?_forgetAfter, hdrop, if_neg hxe]
  · rw [Memo.get?_forgetAfter, hdrop]
    split
    · rfl
    next hze => exact (hoe z hz).resolve_right hze
  · rw [Memo.toList_forgetAfter, hlog, List.append_cons]
    exact List.take_left' (by simp)

/-- The head may get another entry. -/
theorem Memo.Rooted.set {m : Memo Height} {mark : Nat} (h : m.Rooted x others mark)
    (hxo : x ∉ others) (e : Entry Height) : (m.set x e).Rooted x others mark := by
  obtain ⟨before, extra, hlog, hmark, hxe, hoe⟩ := h
  refine ⟨before, extra, hlog, hmark, hxe, fun z hz => ?_⟩
  rw [Memo.get?_set, if_neg]
  · exact hoe z hz
  · rintro rfl
    exact hxo hz

/-- **A round of growth starts** with the seed in the table, and all that was begun after the head
is forgotten. -/
theorem Ready.seeded (seed : Value) (stop : Nat) {mark : Nat} {st : State Height}
    (hx : ¬ x.In S) (hxo : x ∉ others) (hk : Gauged registry limit S f st.memo .empty)
    (hroot : st.memo.Rooted x others mark) :
    Ready registry limit S f x others (st.seeded x mark seed stop) ∧
      (st.seeded x mark seed stop).memo.get? x = some (.done (some seed) stop 0) ∧
      ∃ before, (st.seeded x mark seed stop).memo.log.toList = before ++ [x] ∧
        before.length = mark := by
  obtain ⟨hseed, habsent, hlog⟩ :=
    (hroot.set hxo (.done (some seed) stop (Account.empty : Height))).get?_forgetAfter
  rw [Memo.get?_set, if_pos rfl] at hseed
  exact ⟨⟨rfl, (hk.set hx).forgetAfter, .inr ⟨some seed, stop, 0, hseed⟩, habsent⟩, hseed, hlog⟩

/-- **What becomes of entries** that have nothing to do with the recursion: they stay, unless they
are forgotten. -/
def Memo.Apart (S : Grammar → Target → Prop) (x : Spot) (others : List Spot) (m m' : Memo Height) :
    Prop :=
  ∀ y, ¬ y.In S → y ≠ x → y ∉ others → m'.get? y = m.get? y ∨ m'.get? y = none

theorem Memo.Apart.trans {m m' m'' : Memo Height} (h : Memo.Apart S x others m m')
    (h' : Memo.Apart S x others m' m'') : Memo.Apart S x others m m'' := by
  intro y hy hyx hyo
  rcases h' y hy hyx hyo with he | he
  · rw [he]
    exact h y hy hyx hyo
  · exact .inr he

theorem Memo.Apart.forgetAfter (m : Memo Height) (mark : Nat) :
    Memo.Apart S x others m (m.forgetAfter mark) := by
  intro y _ _ _
  rw [Memo.get?_forgetAfter]
  split
  · exact .inr rfl
  · exact .inl rfl

theorem Memo.Apart.set (m : Memo Height) (e : Entry Height) :
    Memo.Apart S x others m (m.set x e) := by
  intro y _ hyx _
  rw [Memo.get?_set, if_neg hyx]
  exact .inl rfl

theorem Course.keeps_apart {m m' : Memo Height} (h : Course registry limit S f x others m m') :
    Memo.Apart S x others m m' :=
  fun y hy hyx hyo => .inl (h.apart y hy hyx hyo)

section Rounds

variable {starts : Option (Value × Nat) → Prop} {step : Value → Nat → Option (Value × Nat) → Prop}
  {body : Attempt Height}

/-- **Growth is the fold.** The last round comes to no more than the base, which ends no further on
than any seed. -/
theorem grow_folds (hb : Follow registry limit S f x others (Round starts step) body)
    (hx : ¬ x.In S) (hxo : x ∉ others) {v₀ : Value} {e₀ : Nat} (hstart : starts (some (v₀, e₀)))
    {mark fuel : Nat} {seed w : Value} {stop : Nat} {st st' : State Height}
    (hk : Gauged registry limit S f st.memo .empty) (hroot : st.memo.Rooted x others mark)
    (hle : e₀ ≤ stop) (hg : grow body x mark fuel seed stop st = .ok (w, st')) :
    Folds step seed stop w st'.pos ∧ (∀ z ∈ others, st'.memo.get? z = none) ∧
      Memo.Apart S x others st.memo st'.memo := by
  induction fuel generalizing seed stop st with
  | zero => cases hg
  | succ fuel ih =>
    rw [grow_succ] at hg
    obtain ⟨⟨v, inside⟩, hrun, hg⟩ := bind_eq_ok hg
    obtain ⟨hready, hseed, before, hlog, rfl⟩ := Ready.seeded seed stop hx hxo hk hroot
    obtain ⟨hcourse, hround, -⟩ := hb _ _ hready hrun
    have hroot' := hcourse.rooted hlog
    have hapart : Memo.Apart S x others st.memo inside.memo :=
      ((Memo.Apart.set _ _).trans (.forgetAfter _ _)).trans hcourse.keeps_apart
    have hforgotten : (∀ z ∈ others, (inside.grown stop before.length).memo.get? z = none) ∧
        Memo.Apart S x others st.memo (inside.grown stop before.length).memo :=
      ⟨hroot'.get?_forgetAfter.2.1, hapart.trans (.forgetAfter _ _)⟩
    rcases (hround.again hseed).2 with ⟨hsome, hstep⟩ | ⟨hfail, hsame⟩
    · cases v with
      | none => cases hsome
      | some y =>
        dsimp only at hg
        split at hg
        next hlt =>
          have hle' : e₀ ≤ inside.pos := by omega
          obtain ⟨hfolds, hnone, hrest⟩ := ih hcourse.kept hroot' hle' hg
          exact ⟨.more hstep hlt hfolds, hnone, hapart.trans hrest⟩
        next hnot =>
          cases hg
          exact ⟨.stay hstep (Nat.le_of_not_lt hnot), hforgotten⟩
    · -- the round has come to what the base comes to, so it is the last
      cases v with
      | none => cases hsame _ hstart
      | some y =>
        cases hsame _ hstart
        dsimp only at hg
        rw [if_neg (Nat.not_lt.2 hle)] at hg
        cases hg
        exact ⟨.spent hfail, hforgotten⟩

/-- **An application of the head** comes to the fold from what the base comes to. It leaves nothing
of the other applications that belong to it, unless it fails as they do. -/
theorem memoized_folds {call : Call}
    (hb : Follow registry limit S f (p, call) others (Round starts step) body)
    (hx : ¬ Spot.In S (p, call)) (hxo : (p, call) ∉ others) {st st' : State Height}
    {v : Option Value} (hpos : st.pos = p) (hk : Gauged registry limit S f st.memo .empty)
    (hnone : st.memo.get? (p, call) = none) (habsent : ∀ z ∈ others, st.memo.get? z = none)
    (hm : memoized keep f call body st = .ok (v, st')) :
    Fold starts step (Answer.outcome (v, st')) ∧
      (∀ z ∈ others, st'.memo.get? z = none ∨ v = none ∧ Barren (st'.memo.get? z)) ∧
      Memo.Apart S (p, call) others st.memo st'.memo := by
  subst hpos
  have hready : Ready registry limit S f (st.pos, call) others (st.entered call) := by
    refine ⟨rfl, hk.sub fun y hy => .inl ?_, .inl ⟨false, ?_⟩, fun z hz => ?_⟩
    · rw [State.get?_entered, if_neg (by rintro rfl; exact hx hy)]
    · rw [State.get?_entered, if_pos rfl]
    · rw [State.get?_entered, if_neg (by rintro rfl; exact hxo hz)]
      exact habsent z hz
  have hbegin : Memo.Apart S (st.pos, call) others st.memo (st.entered call).memo :=
    fun y _ hyx _ => .inl (by rw [State.get?_entered, if_neg hyx])
  have hends (v : Option Value) (ripe : State Height) :
      Memo.Apart S (st.pos, call) others ripe.memo (st.left keep f call v ripe).memo :=
    fun y _ hyx _ => .inl (State.get?_left hyx)
  have hother (v : Option Value) (ripe : State Height) {z : Spot} (hz : z ∈ others) :
      (st.left keep f call v ripe).memo.get? z = ripe.memo.get? z :=
    State.get?_left (by rintro rfl; exact hxo hz)
  rw [memoized_of_none hnone] at hm
  obtain ⟨⟨v', ripe⟩, hripe, hm⟩ := bind_eq_ok hm
  cases hm
  obtain ⟨⟨w, inside⟩, hw, hripe⟩ := bind_eq_ok hripe
  obtain ⟨hcourse, hround, hbarren⟩ := hb _ _ hready hw
  have hactive : (st.entered call).memo.get? (st.pos, call) = some (.active false) := by
    rw [State.get?_entered, if_pos rfl]
  obtain ⟨hstart, hmet⟩ := hround.first hactive
  have hrun := hbegin.trans hcourse.keeps_apart
  cases w with
  | none =>
    cases hripe
    refine ⟨.fails hstart, fun z hz => .inr ⟨rfl, ?_⟩, hrun.trans (hends _ _)⟩
    rw [hother _ _ hz]
    exact hbarren hactive rfl z hz
  | some seed =>
    have hleft : inside.memo.isLeftRecursive (st.pos, call) = true := by
      unfold Memo.isLeftRecursive
      rw [hmet]
    dsimp only at hripe
    rw [if_pos hleft] at hripe
    obtain ⟨⟨w, grown⟩, hg, hripe⟩ := bind_eq_ok hripe
    cases hripe
    have hlog : (st.entered call).memo.log.toList = st.memo.log.toList ++ [(st.pos, call)] := by
      show (st.memo.begin (st.pos, call)).log.toList = _
      rw [Memo.log_begin, Array.toList_push]
    have hroot : inside.memo.Rooted (st.pos, call) others st.memo.mark := hcourse.rooted hlog
    obtain ⟨hfolds, hforgotten, hapart⟩ :=
      grow_folds hb hx hxo hstart hcourse.kept hroot (Nat.le_refl _) hg
    refine ⟨.folds hstart hfolds, fun z hz => .inl ?_, (hrun.trans hapart).trans (hends _ _)⟩
    rw [hother _ _ hz]
    exact hforgotten z hz

end Rounds

end Packrat
