import Packrat.Proofs.Marks

/-!
# Relying on kept results

A match with kept results beside one without. Both go through the same steps until a kept result is
used; there the second match computes it anew. So a kept result has to be what a new computation
would come to, not only where it was computed but in every situation that its meetings fit.

* `Shows`: a table without kept results holds marks and nothing else.
* `Yields`: what a computation without kept results comes to wherever its meetings fit.
* `Memo.Reliable`: every kept result is what a new computation yields.
* `Beside`: a match under watch beside a match without kept results.
* `besides`: that is a coupling.
-/

namespace Packrat

open Marks

variable {φ : Type} {f : Frame} {spot : Spot} {K L : List Meeting} {T U : Marks}

/-! ### Tables under watch -/

namespace Memo

variable {m : Memo (Watch φ)}

theorem marks_empty : (empty : Memo (Watch φ)).marks = fun _ => none := by
  funext x
  simp [marks]

theorem marks_set (entry : Entry (Watch φ)) :
    (m.set spot entry).marks = m.marks.set spot entry.mark? := by
  funext x
  unfold marks Marks.set
  rw [get?_set]
  split <;> rfl

theorem marks_begin : (m.begin spot).marks = m.marks.set spot (some (.running false)) := by
  rw [begin, marks_set]
  rfl

/-- What is not under way may be forgotten. -/
theorem marks_forgetAfter {mark : Nat} (h : ∀ x ∈ m.log.toList.drop (mark + 1), m.marks x = none) :
    (m.forgetAfter mark).marks = m.marks := by
  funext x
  by_cases hx : x ∈ m.log.toList.drop (mark + 1)
  · rw [h x hx, marks, get?_forgetAfter, if_pos hx]
    rfl
  · rw [marks, get?_forgetAfter, if_neg hx]
    rfl

theorem isLeftRecursive_eq :
    m.isLeftRecursive spot = decide (m.marks spot = some (.running true)) := by
  unfold isLeftRecursive marks
  cases m.get? spot with
  | none => rfl
  | some entry =>
    cases entry with
    | active again => cases again <;> rfl
    | done v stop a =>
      cases v with
      | none => rfl
      | some v => by_cases h : a.met = [] <;> simp [Entry.mark?, h]

end Memo

/-! ### Tables without kept results -/

variable [Account φ]

/-- The entry of an application under way. -/
def Mark.entry : Mark → Entry φ
  | running again => .active again
  | seed v stop => .done (some v) stop Account.empty

/-- **A table that holds nothing but marks.** -/
def Shows (m : Memo φ) (T : Marks) : Prop := ∀ x, m.get? x = (T x).map Mark.entry

namespace Shows

variable {m : Memo φ}

theorem empty : Shows (.empty : Memo φ) fun _ => none := fun x => Memo.get?_empty x

theorem set (h : Shows m T) (mark : Mark) :
    Shows (m.set spot mark.entry) (T.set spot (some mark)) := by
  intro x
  rw [Memo.get?_set]
  unfold Marks.set
  split
  · rfl
  · exact h x

theorem begin (h : Shows m T) : Shows (m.begin spot) (T.set spot (some (.running false))) := by
  intro x
  rw [Memo.get?_begin]
  unfold Marks.set
  split
  · rfl
  · exact h x

theorem erase (h : Shows m T) : Shows (m.erase spot) (T.set spot none) := by
  intro x
  rw [Memo.get?_erase]
  unfold Marks.set
  split
  · rfl
  · exact h x

theorem forgetAfter (h : Shows m T) {mark : Nat}
    (hd : ∀ x ∈ m.log.toList.drop (mark + 1), T x = none) : Shows (m.forgetAfter mark) T := by
  intro x
  rw [Memo.get?_forgetAfter]
  split
  next hx => rw [hd x hx]; rfl
  next => exact h x

theorem isLeftRecursive_eq (h : Shows m T) :
    m.isLeftRecursive spot = decide (T spot = some (.running true)) := by
  unfold Memo.isLeftRecursive
  rw [h spot]
  cases T spot with
  | none => rfl
  | some mark =>
    cases mark with
    | running again => cases again <;> rfl
    | seed v stop => simp [Mark.entry]

end Shows

/-! ### What kept results promise -/

/-- Meetings of a computation in a frame are with applications there or further inside. -/
def Inward (f : Frame) (K : List Meeting) : Prop :=
  ∀ m ∈ K, m.frame = f ∨ f.path.length < m.frame.path.length

theorem Inward.append (hK : Inward f K) (hL : Inward f L) : Inward f (K ++ L) := by
  intro m hm
  exact (List.mem_append.1 hm).elim (hK m) (hL m)

theorem Inward.closed (h : Inward f K) : Inward f (closed f spot K) := by
  intro m hm
  rcases mem_closed.1 hm with rfl | ⟨hm, -⟩
  · exact .inl rfl
  · exact h m hm

/-- Meetings inside an element are not with applications around it. -/
theorem Inward.ne_of_enter? {inner : Frame} {p : Nat} (he : f.enter? p = some inner)
    (h : Inward inner K) : ∀ m ∈ K, f.path.length < m.frame.path.length := by
  have hpath : inner.path.length = f.path.length + 1 := by
    unfold Frame.enter? at he
    split at he
    · cases he; simp [Frame.location]
    · cases he; simp [Frame.location]
    · split at he
      · cases he
      · cases he; simp [Frame.location]
    · cases he
  intro m hm
  rcases h m hm with h | h
  · rw [h]; omega
  · omega

/-- **What a computation without kept results yields**: where its meetings fit, it comes to this
value at this position with this account, or it is cut off. -/
def Yields {α : Type} (f : Frame) (K : List Meeting) (a : α) (pos : Nat) (account : φ) (t : State φ)
    (n : Except Halt (α × State φ)) : Prop :=
  ∀ T, Shows t.memo T → T.Fits f K → Limited n ∨ ∃ t' T', n = .ok (a, t') ∧ t'.pos = pos ∧
    t'.account = account ∧ Shows t'.memo T' ∧ Passes f K T t.memo.log.toList T' t'.memo.log.toList

variable (registry : Registry) (limit : Nat)

/-- **What a kept result promises**: a new computation yields it, at any depth that suffices. -/
structure Kept (f : Frame) (spot : Spot) (v : Option Value) (stop : Nat) (a : Watch φ) : Prop where
  met : a.met ≠ []
  inward : Inward f a.met
  normal : ∀ m ∈ a.met, m.frame = f → m.standing.map Mark.met = m.standing
  yields (r : Rule) (hr : spot.2.owner.rule? spot.2.rule = some r) (depth : Nat) (t : State φ)
    (ht : t.pos = spot.1) :
    Yields f a.met v (if v.isSome then stop else spot.1) (Account.append t.account a.account) t
      (memoized false f spot.2 (runBody (applyKeyed (memoized false) registry limit depth) registry
        f spot.2.dispatch spot.2.owner r spot.2.args) t)

/-- What an entry may be: a mark, or a kept result. -/
def Entry.Reliable (f : Frame) (spot : Spot) : Entry (Watch φ) → Prop
  | .active _ => True
  | .done v stop a => (v.isSome = true ∧ a = Account.empty) ∨ Kept registry limit f spot v stop a

/-- **Every kept result is what a new computation yields.** -/
def Memo.Reliable (f : Frame) (m : Memo (Watch φ)) : Prop :=
  ∀ x entry, m.get? x = some entry → entry.Reliable registry limit f x

namespace Memo.Reliable

variable {registry limit} {m : Memo (Watch φ)}

theorem empty : Reliable registry limit f (.empty : Memo (Watch φ)) := fun x entry h => by
  simp at h

theorem set (h : Reliable registry limit f m) {entry : Entry (Watch φ)}
    (he : entry.Reliable registry limit f spot) : Reliable registry limit f (m.set spot entry) := by
  intro x entry' hx
  rw [get?_set] at hx
  split at hx
  next hs => cases hx; subst hs; exact he
  next => exact h x entry' hx

theorem begin (h : Reliable registry limit f m) : Reliable registry limit f (m.begin spot) := by
  intro x entry hx
  rw [get?_begin] at hx
  split at hx
  next => cases hx; trivial
  next => exact h x entry hx

theorem forgetAfter (h : Reliable registry limit f m) (mark : Nat) :
    Reliable registry limit f (m.forgetAfter mark) := by
  intro x entry hx
  rw [get?_forgetAfter] at hx
  split at hx
  · cases hx
  · exact h x entry hx

end Memo.Reliable

/-! ### The coupling -/

/-- **How a match under watch proceeds** from one state to another. -/
structure Proceeds (f : Frame) (s s' : State (Watch φ)) (K : List Meeting) : Prop where
  met : s'.account.met = s.account.met ++ K
  inward : Inward f K
  passes : Passes f K s.memo.marks s.memo.log.toList s'.memo.marks s'.memo.log.toList
  reliable : s'.memo.Reliable registry limit f

variable {registry limit}

theorem Proceeds.trans {s s' s'' : State (Watch φ)} (h : Proceeds registry limit f s s' K)
    (h' : Proceeds registry limit f s' s'' L) : Proceeds registry limit f s s'' (K ++ L) where
  met := by rw [h'.met, h.met, List.append_assoc]
  inward := h.inward.append h'.inward
  passes := h.passes.trans h'.passes
  reliable := h'.reliable

variable (registry limit) in
/-- **The match under watch beside the match without kept results.** Where the first comes to a
value, the second yields it wherever the meetings on the way fit. Where the first ends early, so
does the second if it started from the same marks. -/
def Beside {α : Type} (f : Frame) (s : State (Watch φ)) (t : State φ) :
    Except Halt (α × State (Watch φ)) → Except Halt (α × State φ) → Prop
  | .ok (a, s'), n => ∃ K, Proceeds registry limit f s s' K ∧
      (t.account = s.account.account → Yields f K a s'.pos s'.account.account t n)
  | .error h, n => h.isLimit = true ∨ h = .exhausted ∨
      (t.account = s.account.account → Shows t.memo s.memo.marks → Limited n ∨ n = .error h)

namespace Beside

variable {α β : Type} {s : State (Watch φ)} {t : State φ} {m : Except Halt (α × State (Watch φ))}
  {n : Except Halt (α × State φ)}

/-- A step that changes neither table nor meetings. -/
theorem step {a : α} {s' : State (Watch φ)} {t' : State φ} (hs : s.memo.Reliable registry limit f)
    (hmemo : s'.memo = s.memo) (hmet : s'.account.met = s.account.met) (htmemo : t'.memo = t.memo)
    (hpos : t'.pos = s'.pos)
    (hacc : t.account = s.account.account → t'.account = s'.account.account) :
    Beside registry limit f s t (.ok (a, s')) (.ok (a, t')) := by
  refine ⟨[], ⟨?_, fun x hx => ?_, ?_, ?_⟩, fun ha T hT _ => ?_⟩
  · rw [hmet, List.append_nil]
  · cases hx
  · rw [hmemo]; exact .refl
  · rw [hmemo]; exact hs
  · rw [← htmemo] at hT ⊢
    exact .inr ⟨t', T, rfl, hpos, hacc ha, hT, .refl⟩

/-- **One computation after another.** -/
theorem bind {j : α × State (Watch φ) → Except Halt (β × State (Watch φ))}
    {k : α × State φ → Except Halt (β × State φ)} (h : Beside registry limit f s t m n)
    (hjk : ∀ a s' t', s'.pos = t'.pos → s'.memo.Reliable registry limit f →
      Beside registry limit f s' t' (j (a, s')) (k (a, t'))) :
    Beside registry limit f s t (m >>= j) (n >>= k) := by
  cases m with
  | error halt =>
    refine h.imp id (Or.imp id fun hn ha hT => ?_)
    rcases hn ha hT with hlim | rfl
    · exact .inl (hlim.bind k)
    · exact .inr rfl
  | ok r =>
    obtain ⟨a, s'⟩ := r
    obtain ⟨K, hp, hy⟩ := h
    -- what the first match does next does not depend on the second, so any state will do
    have h₀ := hjk a s' { pos := s'.pos, memo := .empty, account := s'.account.account } rfl
      hp.reliable
    show Beside registry limit f s t (j (a, s')) (n >>= k)
    cases hj : j (a, s') with
    | error halt =>
      by_cases hl : halt.isLimit = true ∨ halt = .exhausted
      · exact hl.imp id .inl
      refine .inr (.inr fun ha hT => ?_)
      rcases hy ha _ hT hp.passes.fits with hlim | ⟨t', T', rfl, hpos, hacc, hshow, hpass⟩
      · exact .inl (hlim.bind k)
      have h' := hjk a s' t' hpos.symm hp.reliable
      rw [hj] at h'
      have hn := (h'.resolve_left fun h => hl (.inl h)).resolve_left fun h => hl (.inr h)
      refine hn hacc ?_
      rw [hp.passes.marks, ← hpass.marks]
      exact hshow
    | ok r' =>
      obtain ⟨b, s''⟩ := r'
      rw [hj] at h₀
      obtain ⟨L, hp', -⟩ := h₀
      refine ⟨K ++ L, hp.trans hp', fun ha T hT hfits => ?_⟩
      obtain ⟨hK, hL⟩ := fits_append.1 hfits
      rcases hy ha T hT hK with hlim | ⟨t', T', rfl, hpos, hacc, hshow, hpass⟩
      · exact .inl (hlim.bind k)
      have h' := hjk a s' t' hpos.symm hp.reliable
      rw [hj] at h'
      obtain ⟨L', hp'', hy'⟩ := h'
      -- the meetings are those of the first match, whatever the second one started from
      obtain rfl : L' = L := List.append_cancel_left (hp''.met.symm.trans hp'.met)
      rw [← hpass.marks] at hL
      rcases hy' hacc T' hshow hL with hlim | ⟨t'', T'', hk, hpos', hacc', hshow', hpass'⟩
      · exact .inl hlim
      · exact .inr ⟨t'', T'', hk, hpos', hacc', hshow', hpass.trans hpass'⟩

/-- A match that is cut off has nothing to yield. -/
theorem of_limited {n' : Except Halt (α × State φ)} (h : Beside registry limit f s t m n)
    (hl : Limited n') : Beside registry limit f s t m n' := by
  cases m with
  | error halt => exact h.imp id (Or.imp id fun _ _ _ => .inl hl)
  | ok r =>
    obtain ⟨K, hp, -⟩ := h
    exact ⟨K, hp, fun _ _ _ _ => .inl hl⟩

/-- What a negated lookahead missed is put away, what it met is not. -/
theorem negated
    (h : Beside registry limit f { s with account := Account.empty }
      { t with account := Account.empty } m n) :
    Beside registry limit f s t
      (m >>= fun r => .ok (r.1, { r.2 with
        account := Account.append s.account (Account.ofNegation r.2.account) }))
      (n >>= fun r => .ok (r.1, { r.2 with
        account := Account.append t.account (Account.ofNegation r.2.account) })) := by
  cases m with
  | error halt =>
    refine h.imp id (Or.imp id fun hn _ hT => ?_)
    rcases hn rfl hT with hlim | rfl
    · exact .inl (hlim.bind _)
    · exact .inr rfl
  | ok r =>
    obtain ⟨a, s'⟩ := r
    obtain ⟨K, hp, hy⟩ := h
    have hK : s'.account.met = K := hp.met
    refine ⟨K, ⟨?_, hp.inward, hp.passes, hp.reliable⟩, fun ha T hT hfits => ?_⟩
    · show s.account.met ++ s'.account.met = _
      rw [hK]
    · -- inside the lookahead both accounts start empty
      rcases hy rfl T hT hfits with hlim | ⟨t', T', rfl, hpos, hacc, hshow, hpass⟩
      · exact .inl (hlim.bind _)
      · refine .inr ⟨_, T', rfl, hpos, ?_, hshow, hpass⟩
        show Account.append t.account (Account.ofNegation t'.account) =
          Account.append s.account.account (Account.ofNegation s'.account.account)
        rw [ha, hacc]

/-- What is met inside an element is nothing to the frame around it. -/
theorem nested {inner : Frame} {p : Nat} (he : f.enter? p = some inner) (hpos : s.pos = t.pos)
    (hs : s.memo.Reliable registry limit f)
    (h : Beside registry limit inner (.start s.account) (.start t.account) m n) :
    Beside registry limit f s t (m >>= fun r => .ok (r.1, { s with account := r.2.account }))
      (n >>= fun r => .ok (r.1, { t with account := r.2.account })) := by
  cases m with
  | error halt =>
    refine h.imp id (Or.imp id fun hn ha _ => ?_)
    have hempty : Shows (State.start t.account).memo (State.start s.account).memo.marks := by
      show Shows .empty (Memo.empty : Memo (Watch φ)).marks
      rw [Memo.marks_empty]
      exact .empty
    rcases hn ha hempty with hlim | rfl
    · exact .inl (hlim.bind _)
    · exact .inr rfl
  | ok r =>
    obtain ⟨a, s'⟩ := r
    obtain ⟨K, hp, hy⟩ := h
    have hdeeper := hp.inward.ne_of_enter? he
    have hne : ∀ m ∈ K, m.frame ≠ f := fun m hm hf => by
      have hlt := hdeeper m hm
      rw [hf] at hlt
      omega
    have hpass : ∀ (T : Marks) (l : List Spot), Passes f K T l T l := fun T l =>
      ⟨fits_of_ne hne, (after_of_ne hne).symm, [], by simp, by simp⟩
    refine ⟨K, ⟨hp.met, fun m hm => .inr (hdeeper m hm), hpass _ _, hs⟩, fun ha T hT _ => ?_⟩
    -- the table inside starts empty in both matches, so the meetings fit there
    have hfits := hp.passes.fits
    rw [show (State.start s.account).memo.marks = fun _ => none from Memo.marks_empty] at hfits
    rcases hy ha _ Shows.empty hfits with hlim | ⟨t', T', rfl, -, hacc, -, -⟩
    · exact .inl (hlim.bind _)
    · exact .inr ⟨_, T, rfl, hpos.symm, hacc, hT, hpass _ _⟩

end Beside

variable (φ registry limit) in
/-- **The coupling** of a match under watch and a match without kept results. -/
def besides : Coupling (Watch φ) φ where
  rel f s t m n := s.pos = t.pos → s.memo.Reliable registry limit f →
    Beside registry limit f s t m n
  halts _ := True
  at_pos h hpos := h hpos hpos
  halt _ _ _ := .inr (.inr fun _ _ => .inr rfl)
  move _ hs := .step hs rfl rfl rfl rfl id
  expect hpos hs := .step hs rfl (List.append_nil _) rfl hpos.symm fun ha => by
    show Account.append _ _ = Account.append _ _
    rw [ha]
    rfl
  bind h hjk hpos hs := (h hpos hs).bind fun a s' t' => hjk a s' t'
  negated h hpos hs := (h hpos hs).negated
  nested he h hpos hs := .nested he hpos hs (h rfl .empty)

end Packrat
