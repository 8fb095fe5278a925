import Packrat.Proofs.Reliance

/-!
# Ripening in step

An application that is not in the table runs its body, and again from a seed as long as it grows.
This goes the same way in a match without kept results, under any marks that the meetings of the
whole application fit: each round meets the application as it stands in that round, and everything
outside of it as the application as a whole does.

* `Inside`: the match under watch has run the body of an application.
* `Echoes`: the match without kept results does inside the application what the one under watch
  does.
* `ripened_inside`, `ripened_echoes`: both, for the whole of an application.
-/

namespace Packrat

open Marks

variable {φ : Type} [Account φ] {registry : Registry} {limit : Nat} {f : Frame} {spot : Spot}
  {T U U₀ U₁ : Marks} {l l' : List Spot} {K L : List Meeting}

/-- **Inside an application** that began under the marks `T`: its body has run in the match under
watch. -/
structure Inside (registry : Registry) (limit : Nat) (f : Frame) (spot : Spot) (T : Marks)
    (l : List Spot) (w : State (Watch φ)) : Prop where
  within : Within f spot T l w.account.met w.memo.marks w.memo.log.toList
  inward : Inward f w.account.met
  reliable : w.memo.Reliable registry limit f

/-- **The match without kept results echoes the one under watch** inside an application: it comes to
the same if the meetings fit the marks `U` under which the application began here, and ends early in
the same way if these are the marks of the match under watch. -/
def Echoes {α : Type} (f : Frame) (spot : Spot) (T U : Marks) (l' : List Spot) :
    Except Halt (α × State (Watch φ)) → Except Halt (α × State φ) → Prop
  | .ok (a, w), n => U.Fits f w.account.met → Limited n ∨ ∃ t U₁, n = .ok (a, t) ∧ t.pos = w.pos ∧
      t.account = w.account.account ∧ Shows t.memo U₁ ∧ U₁ spot = w.memo.marks spot ∧
      Within f spot U l' w.account.met U₁ t.memo.log.toList
  | .error h, n => h.isLimit = true ∨ h = .exhausted ∨ (U = T → Limited n ∨ n = .error h)

/-- **One computation after another** inside an application. -/
theorem Echoes.bind {α β : Type} {m : Except Halt (α × State (Watch φ))}
    {n : Except Halt (α × State φ)} {j : α × State (Watch φ) → Except Halt (β × State (Watch φ))}
    {k : α × State φ → Except Halt (β × State φ)} (h : Echoes f spot T U l' m n)
    (hm : ∀ a w, m = .ok (a, w) → T.Fits f w.account.met ∧
      ∀ b w', j (a, w) = .ok (b, w') → U.Fits f w'.account.met → U.Fits f w.account.met)
    (hjk : ∀ a w t U₁, m = .ok (a, w) → t.pos = w.pos → t.account = w.account.account →
      Shows t.memo U₁ → U₁ spot = w.memo.marks spot →
      Within f spot U l' w.account.met U₁ t.memo.log.toList →
        Echoes f spot T U l' (j (a, w)) (k (a, t))) :
    Echoes f spot T U l' (m >>= j) (n >>= k) := by
  cases m with
  | error halt =>
    refine h.imp id (Or.imp id fun hn hU => ?_)
    rcases hn hU with hlim | rfl
    · exact .inl (hlim.bind k)
    · exact .inr rfl
  | ok r =>
    obtain ⟨a, w⟩ := r
    obtain ⟨hT, hback⟩ := hm a w rfl
    show Echoes f spot T U l' (j (a, w)) (n >>= k)
    cases hj : j (a, w) with
    | error halt =>
      by_cases hl : halt.isLimit = true ∨ halt = .exhausted
      · exact hl.imp id .inl
      refine .inr (.inr fun hU => ?_)
      subst hU
      -- under the marks of the match under watch its own meetings fit
      rcases h hT with hlim | ⟨t, U₁, rfl, hpos, hacc, hshow, hself, hwithin⟩
      · exact .inl (hlim.bind k)
      have h' := hjk a w t U₁ rfl hpos hacc hshow hself hwithin
      rw [hj] at h'
      exact (h'.resolve_left fun h => hl (.inl h)).resolve_left (fun h => hl (.inr h)) rfl
    | ok r' =>
      obtain ⟨b, w'⟩ := r'
      intro hfits
      rcases h (hback b w' hj hfits) with hlim | ⟨t, U₁, rfl, hpos, hacc, hshow, hself, hwithin⟩
      · exact .inl (hlim.bind k)
      have h' := hjk a w t U₁ rfl hpos hacc hshow hself hwithin
      rw [hj] at h'
      exact h' hfits

/-! ### The body -/

variable {bodyW : Attempt (Watch φ)} {body : Attempt φ} {w : State (Watch φ)} {mark : Mark}

/-- What fits after the body fitted before it. -/
theorem Opened.fits_before (h : Opened f spot mark T l K U₀ l')
    (hU : U.Fits f (closed f spot (K ++ L))) : U.Fits f K := by
  intro m hm hf
  by_cases hs : m.spot = spot
  · rw [h.own m hm hf hs, hs]
    exact hU _ (mem_closed.2 (.inl rfl)) rfl
  · exact hU m (mem_closed.2 (.inr ⟨List.mem_append_left _ hm, fun h => hs h.2⟩)) hf

/-- **The body runs under watch.** -/
theorem attempt_inside
    (hb : ∀ t : State φ, w.pos = t.pos → Beside registry limit f w t (bodyW w) (body t))
    (ho : Opened f spot mark T l w.account.met w.memo.marks w.memo.log.toList)
    (hin : Inward f w.account.met) {v : Option Value} {w' : State (Watch φ)}
    (hw : closing f spot bodyW w = .ok (v, w')) :
    Inside registry limit f spot T l w' ∧
      ∀ U : Marks, U.Fits f w'.account.met → U.Fits f w.account.met := by
  -- only the match under watch is of interest, so any state of the other will do
  have h := hb { pos := w.pos, memo := .empty, account := w.account.account } rfl
  unfold closing at hw
  cases hbody : bodyW w with
  | error halt => rw [hbody] at hw; cases hw
  | ok r =>
    rw [hbody] at hw h
    cases hw
    obtain ⟨L, hp, -⟩ := h
    have hmet : (r.2.close f spot).account.met = closed f spot (w.account.met ++ L) := by
      rw [← hp.met]
      rfl
    refine ⟨⟨?_, ?_, hp.reliable⟩, fun U hU => ?_⟩
    · rw [hmet]
      exact ho.within hp.passes
    · rw [hmet]
      exact (hin.append hp.inward).closed
    · rw [hmet] at hU
      exact ho.fits_before hU

/-- **The body runs without kept results**, and echoes the one under watch. -/
theorem attempt_echoes
    (hb : ∀ t : State φ, w.pos = t.pos → Beside registry limit f w t (bodyW w) (body t))
    (ho : Opened f spot mark T l w.account.met w.memo.marks w.memo.log.toList) {t : State φ}
    (hpos : t.pos = w.pos) (hacc : t.account = w.account.account) (hshow : Shows t.memo U₀)
    (ho' : Opened f spot mark U l' w.account.met U₀ t.memo.log.toList) :
    Echoes f spot T U l' (closing f spot bodyW w) (body t) := by
  have h := hb t hpos.symm
  unfold closing
  cases hbody : bodyW w with
  | error halt =>
    rw [hbody] at h
    refine h.imp id (Or.imp id fun hn hU => hn hacc ?_)
    -- the application began under the same marks, so it is open under the same marks
    rw [ho.marks, ← hU, ← ho'.marks]
    exact hshow
  | ok r =>
    rw [hbody] at h
    obtain ⟨L, hp, hy⟩ := h
    have hmet : (r.2.close f spot).account.met = closed f spot (w.account.met ++ L) := by
      rw [← hp.met]
      rfl
    intro hfits
    rw [hmet] at hfits
    have hL : U₀.Fits f L := ho.fits_of_closed ho' hp.passes.fits hfits
    rcases hy hacc U₀ hshow hL with hlim | ⟨t', U₁, hn, hpos', hacc', hshow', hpass⟩
    · exact .inl hlim
    refine .inr ⟨t', U₁, hn, hpos', hacc', hshow', ?_, ?_⟩
    · have hself : r.2.memo.marks spot = U₁ spot := by
        rw [hp.passes.marks, hpass.marks, ho.after_self, ho'.after_self]
      exact hself.symm
    · rw [hmet]
      exact ho'.within hpass

/-! ### Growth -/

/-- A round of growth starts under watch. -/
theorem Inside.seeded (h : Inside registry limit f spot T l w) (seed : Value) (stop : Nat) :
    Opened f spot (.seed seed stop) T l (w.seeded spot l.length seed stop).account.met
        (w.seeded spot l.length seed stop).memo.marks
        (w.seeded spot l.length seed stop).memo.log.toList ∧
      (w.seeded spot l.length seed stop).memo.Reliable registry limit f := by
  constructor
  · have hmarks : (w.seeded spot l.length seed stop).memo.marks =
        w.memo.marks.set spot (some (.seed seed stop)) := by
      unfold State.seeded
      rw [Memo.marks_forgetAfter, Memo.marks_set]
      · rfl
      · -- all that is forgotten was begun by the body and has ended
        intro x hx
        rw [Memo.log_set] at hx
        rw [Memo.marks_set, set_of_ne (h.within.of_mem_drop hx).1]
        exact (h.within.of_mem_drop hx).2
    have hlog : (w.seeded spot l.length seed stop).memo.log.toList = l ++ [spot] := by
      unfold State.seeded
      rw [Memo.toList_forgetAfter, Memo.log_set, h.within.take_log]
    rw [hmarks, hlog]
    exact h.within.reopen _
  · have hseed : (Entry.done (some seed) stop Account.empty : Entry (Watch φ)).Reliable registry
        limit f spot := .inl ⟨rfl, rfl⟩
    exact (h.reliable.set hseed).forgetAfter _

/-- A round of growth starts without kept results. -/
theorem Within.seeded {t : State φ} (hshow : Shows t.memo U₁)
    (h : Within f spot U l' K U₁ t.memo.log.toList) (seed : Value) (stop : Nat) :
    Shows (t.seeded spot l'.length seed stop).memo (U₁.set spot (some (.seed seed stop))) ∧
      Opened f spot (.seed seed stop) U l' K (U₁.set spot (some (.seed seed stop)))
        (t.seeded spot l'.length seed stop).memo.log.toList := by
  constructor
  · refine (hshow.set (.seed seed stop)).forgetAfter fun x hx => ?_
    rw [Memo.log_set] at hx
    rw [set_of_ne (h.of_mem_drop hx).1]
    exact (h.of_mem_drop hx).2
  · have hlog : (t.seeded spot l'.length seed stop).memo.log.toList = l' ++ [spot] := by
      unfold State.seeded
      rw [Memo.toList_forgetAfter, Memo.log_set, h.take_log]
    rw [hlog]
    exact h.reopen _

/-- Growth ends under watch. -/
theorem Inside.grown (h : Inside registry limit f spot T l w) (stop : Nat) :
    Inside registry limit f spot T l (w.grown stop l.length) ∧
      (w.grown stop l.length).memo.marks = w.memo.marks := by
  have hmarks : (w.grown stop l.length).memo.marks = w.memo.marks :=
    Memo.marks_forgetAfter fun x hx => (h.within.of_mem_drop hx).2
  refine ⟨⟨?_, h.inward, h.reliable.forgetAfter _⟩, hmarks⟩
  have hlog : (w.grown stop l.length).memo.log.toList = l ++ [spot] := by
    unfold State.grown
    rw [Memo.toList_forgetAfter, h.within.take_log]
  rw [hmarks, hlog]
  exact h.within.cut

/-- Growth ends without kept results. -/
theorem Within.grown {t : State φ} (hshow : Shows t.memo U₁)
    (h : Within f spot U l' K U₁ t.memo.log.toList) (stop : Nat) :
    Shows (t.grown stop l'.length).memo U₁ ∧
      Within f spot U l' K U₁ (t.grown stop l'.length).memo.log.toList := by
  refine ⟨hshow.forgetAfter fun x hx => (h.of_mem_drop hx).2, ?_⟩
  have hlog : (t.grown stop l'.length).memo.log.toList = l' ++ [spot] := by
    unfold State.grown
    rw [Memo.toList_forgetAfter, h.take_log]
  rw [hlog]
  exact h.cut

variable (hb : ∀ (w : State (Watch φ)) (t : State φ), w.pos = t.pos →
  w.memo.Reliable registry limit f → Beside registry limit f w t (bodyW w) (body t))

include hb

/-- **Seeds grow under watch.** -/
theorem grow_inside (fuel : Nat) (seed : Value) (stop : Nat) (w : State (Watch φ))
    (hi : Inside registry limit f spot T l w) (v : Value) (w' : State (Watch φ))
    (hg : grow (closing f spot bodyW) spot l.length fuel seed stop w = .ok (v, w')) :
    Inside registry limit f spot T l w' ∧
      ∀ U : Marks, U.Fits f w'.account.met → U.Fits f w.account.met := by
  induction fuel generalizing seed stop w with
  | zero => cases hg
  | succ fuel ih =>
    rw [grow_succ] at hg
    obtain ⟨ho, hrel⟩ := hi.seeded seed stop
    cases hround : closing f spot bodyW (w.seeded spot l.length seed stop) with
    | error halt => rw [hround] at hg; cases hg
    | ok r =>
      obtain ⟨u, w₁⟩ := r
      rw [hround] at hg
      obtain ⟨hi₁, hback⟩ := attempt_inside (fun t ht => hb _ t ht hrel) ho hi.inward hround
      cases u with
      | none =>
        cases hg
        exact ⟨(hi₁.grown stop).1, hback⟩
      | some u =>
        have hg : (if stop < w₁.pos then grow (closing f spot bodyW) spot l.length fuel u w₁.pos w₁
            else .ok (seed, w₁.grown stop l.length)) = .ok (v, w') := hg
        split at hg
        · obtain ⟨hi', hback'⟩ := ih u w₁.pos w₁ hi₁ hg
          exact ⟨hi', fun U hU => hback U (hback' U hU)⟩
        · cases hg
          exact ⟨(hi₁.grown stop).1, hback⟩

/-- **Seeds grow in step.** -/
theorem grow_echoes (fuel : Nat) (seed : Value) (stop : Nat) (w : State (Watch φ)) (t : State φ)
    (U₁ : Marks) (hi : Inside registry limit f spot T l w) (hacc : t.account = w.account.account)
    (hshow : Shows t.memo U₁)
    (hwithin : Within f spot U l' w.account.met U₁ t.memo.log.toList) :
    Echoes f spot T U l' (grow (closing f spot bodyW) spot l.length fuel seed stop w)
      (grow body spot l'.length fuel seed stop t) := by
  induction fuel generalizing seed stop w t U₁ with
  | zero => exact .inr (.inl rfl)
  | succ fuel ih =>
    rw [grow_succ, grow_succ]
    obtain ⟨ho, hrel⟩ := hi.seeded seed stop
    obtain ⟨hshow₀, ho'⟩ := hwithin.seeded hshow seed stop
    have hround := attempt_echoes (fun t ht => hb _ t ht hrel) ho
      (t := t.seeded spot l'.length seed stop) rfl hacc hshow₀ ho'
    have hinside : ∀ u w₁, closing f spot bodyW (w.seeded spot l.length seed stop) = .ok (u, w₁) →
        Inside registry limit f spot T l w₁ := fun u w₁ hw =>
      (attempt_inside (fun t ht => hb _ t ht hrel) ho hi.inward hw).1
    -- the end of growth, on both sides
    have hend : ∀ (u : Option Value) (w₁ : State (Watch φ)) (t₁ : State φ) (U₂ : Marks),
        closing f spot bodyW (w.seeded spot l.length seed stop) = .ok (u, w₁) →
        t₁.account = w₁.account.account → Shows t₁.memo U₂ → U₂ spot = w₁.memo.marks spot →
        Within f spot U l' w₁.account.met U₂ t₁.memo.log.toList →
        Echoes f spot T U l' (.ok (seed, w₁.grown stop l.length))
          (.ok (seed, t₁.grown stop l'.length)) := by
      intro u w₁ t₁ U₂ hw hacc₁ hshow₁ hself hwithin₁ _
      obtain ⟨hshow₂, hwithin₂⟩ := hwithin₁.grown hshow₁ stop
      refine .inr ⟨_, U₂, rfl, rfl, hacc₁, hshow₂, ?_, hwithin₂⟩
      rw [((hinside u w₁ hw).grown stop).2]
      exact hself
    refine hround.bind (fun u w₁ hw => ⟨(hinside u w₁ hw).within.fits, fun b w' hj => ?_⟩)
      fun u w₁ t₁ U₂ hw hpos₁ hacc₁ hshow₁ hself hwithin₁ => ?_
    · cases u with
      | none => cases hj; exact id
      | some u =>
        have hj : (if stop < w₁.pos then grow (closing f spot bodyW) spot l.length fuel u w₁.pos w₁
            else .ok (seed, w₁.grown stop l.length)) = .ok (b, w') := hj
        split at hj
        · exact (grow_inside hb fuel u w₁.pos w₁ (hinside _ w₁ hw) b w' hj).2 U
        · cases hj; exact id
    · cases u with
      | none => exact hend _ w₁ t₁ U₂ hw hacc₁ hshow₁ hself hwithin₁
      | some u =>
        show Echoes f spot T U l' (if stop < w₁.pos then _ else _) (if stop < t₁.pos then _ else _)
        rw [hpos₁]
        split
        · exact ih u w₁.pos w₁ t₁ U₂ (hinside _ w₁ hw) hacc₁ hshow₁ hwithin₁
        · exact hend _ w₁ t₁ U₂ hw hacc₁ hshow₁ hself hwithin₁

/-! ### The whole application -/

/-- **An application ripens under watch.** -/
theorem ripened_inside (ho : Opened f spot mark T l w.account.met w.memo.marks w.memo.log.toList)
    (hin : Inward f w.account.met) (hrel : w.memo.Reliable registry limit f) {v : Option Value}
    {w' : State (Watch φ)} (hr : ripened (closing f spot bodyW) f spot l.length w = .ok (v, w')) :
    Inside registry limit f spot T l w' := by
  unfold ripened at hr
  cases hbody : closing f spot bodyW w with
  | error halt => rw [hbody] at hr; cases hr
  | ok r =>
    obtain ⟨u, w₁⟩ := r
    rw [hbody] at hr
    obtain ⟨hi, -⟩ := attempt_inside (fun t ht => hb w t ht hrel) ho hin hbody
    cases u with
    | none => cases hr; exact hi
    | some seed =>
      simp only [bind, Except.bind] at hr
      split at hr
      · cases hg : grow (closing f spot bodyW) spot l.length (f.input.size - w₁.pos + 1) seed w₁.pos
            w₁ with
        | error halt => rw [hg] at hr; cases hr
        | ok r' =>
          rw [hg] at hr
          cases hr
          exact (grow_inside hb _ _ _ w₁ hi r'.1 r'.2 hg).1
      · cases hr; exact hi

/-- **An application ripens in step.** -/
theorem ripened_echoes (ho : Opened f spot mark T l w.account.met w.memo.marks w.memo.log.toList)
    (hin : Inward f w.account.met) (hrel : w.memo.Reliable registry limit f) {t : State φ}
    (hpos : t.pos = w.pos) (hacc : t.account = w.account.account) (hshow : Shows t.memo U₀)
    (ho' : Opened f spot mark U l' w.account.met U₀ t.memo.log.toList) :
    Echoes f spot T U l' (ripened (closing f spot bodyW) f spot l.length w)
      (ripened body f spot l'.length t) := by
  have hbody := attempt_echoes (fun t ht => hb w t ht hrel) ho hpos hacc hshow ho'
  have hinside : ∀ u w₁, closing f spot bodyW w = .ok (u, w₁) →
      Inside registry limit f spot T l w₁ := fun u w₁ hw =>
    (attempt_inside (fun t ht => hb w t ht hrel) ho hin hw).1
  unfold ripened
  refine hbody.bind (fun u w₁ hw => ⟨(hinside u w₁ hw).within.fits, fun v w' hj => ?_⟩)
    fun u w₁ t₁ U₁ hw hpos₁ hacc₁ hshow₁ hself hwithin => ?_
  · cases u with
    | none => cases hj; exact id
    | some seed =>
      dsimp only at hj
      split at hj
      · cases hg : grow (closing f spot bodyW) spot l.length (f.input.size - w₁.pos + 1) seed w₁.pos
            w₁ with
        | error halt => rw [hg] at hj; cases hj
        | ok r' =>
          rw [hg] at hj
          cases hj
          exact (grow_inside hb _ _ _ w₁ (hinside _ w₁ hw) r'.1 r'.2 hg).2 U
      · cases hj; exact id
  · have hdone : ∀ v : Option Value, Echoes f spot T U l' (.ok (v, w₁)) (.ok (v, t₁)) := fun v _ =>
      .inr ⟨t₁, U₁, rfl, hpos₁, hacc₁, hshow₁, hself, hwithin⟩
    cases u with
    | none => exact hdone none
    | some seed =>
      -- both bodies met their application again, or neither did
      have hmet : t₁.memo.isLeftRecursive spot = w₁.memo.isLeftRecursive spot := by
        rw [hshow₁.isLeftRecursive_eq, Memo.isLeftRecursive_eq, hself]
      dsimp only
      rw [hmet, hpos₁]
      split
      · have hgrow := grow_echoes hb (f.input.size - w₁.pos + 1) seed w₁.pos w₁ t₁ U₁
          (hinside _ w₁ hw) hacc₁ hshow₁ hwithin
        refine hgrow.bind (fun v w₂ hg => ⟨?_, fun b w' hj => ?_⟩)
          fun v w₂ t₂ U₂ _ hpos₂ hacc₂ hshow₂ hself₂ hwithin₂ _ => ?_
        · exact (grow_inside hb _ _ _ w₁ (hinside _ w₁ hw) v w₂ hg).1.within.fits
        · cases hj; exact id
        · exact .inr ⟨t₂, U₂, rfl, hpos₂, hacc₂, hshow₂, hself₂, hwithin₂⟩
      · exact hdone (some seed)

end Packrat
