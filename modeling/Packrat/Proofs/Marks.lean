import Packrat.Proofs.Watch

/-!
# Marks

What a computation can see of the applications under way, and what it does to them. A computation
sees how an application stands only by meeting it, and all it changes is that an application whose
body runs has been met. So a list of meetings says both under which marks the computation would go
the same way, and which marks it leaves behind.

* `Marks.Fits`: under these marks the meetings would be the same.
* `Marks.after`: the marks after the meetings.
* `Passes`: the marks and the log before and after a computation.
* `Opened`, `Within`: the marks while an application is under way, before and after its body.
-/

namespace Packrat

namespace Marks

variable {T : Marks} {f : Frame} {K L : List Meeting} {spot x : Spot}

/-- The marks with that of one application changed. -/
def set (T : Marks) (spot : Spot) (mark : Option Mark) : Marks :=
  fun x => if x = spot then mark else T x

theorem set_self {mark : Option Mark} : T.set spot mark spot = mark := if_pos rfl

theorem set_of_ne {mark : Option Mark} (h : x ≠ spot) : T.set spot mark x = T x := if_neg h

/-- What the meetings left behind: a running body that was met is marked so. -/
def after (T : Marks) (f : Frame) (K : List Meeting) : Marks :=
  fun x => if ⟨f, x, some (.running true)⟩ ∈ K then some (.running true) else T x

/-- **The meetings would be the same under these marks**, as far as they are about the frame. -/
def Fits (T : Marks) (f : Frame) (K : List Meeting) : Prop :=
  ∀ m ∈ K, m.frame = f → (T m.spot).map Mark.met = m.standing

theorem after_nil : T.after f [] = T := by
  funext x
  simp [after]

theorem fits_nil : T.Fits f [] := fun m hm => by cases hm

theorem after_append : T.after f (K ++ L) = (T.after f K).after f L := by
  funext x
  unfold after
  by_cases hK : ⟨f, x, some (.running true)⟩ ∈ K
  · simp [hK]
  · simp [hK, List.mem_append]

/-- Meetings do not change how an application stands, apart from the fact that it was met. -/
theorem Fits.met_after (h : T.Fits f K) (x : Spot) :
    (T.after f K x).map Mark.met = (T x).map Mark.met := by
  unfold after
  split
  next hm => rw [h _ hm rfl]; rfl
  next => rfl

/-- So nothing gets under way or ends by being met. -/
theorem Fits.after_eq_none (h : T.Fits f K) : T.after f K x = none ↔ T x = none := by
  rw [← Option.map_eq_none_iff (f := Mark.met), h.met_after, Option.map_eq_none_iff]

/-- Meetings one after another. -/
theorem fits_append : T.Fits f (K ++ L) ↔ T.Fits f K ∧ (T.after f K).Fits f L := by
  constructor
  · intro h
    have hK : T.Fits f K := fun m hm => h m (List.mem_append_left _ hm)
    refine ⟨hK, fun m hm hf => ?_⟩
    rw [hK.met_after]
    exact h m (List.mem_append_right _ hm) hf
  · rintro ⟨hK, hL⟩ m hm hf
    rcases List.mem_append.1 hm with hm | hm
    · exact hK m hm hf
    · rw [← hK.met_after]
      exact hL m hm hf

/-- Meetings in other frames are of no account. -/
theorem fits_of_ne (h : ∀ m ∈ K, m.frame ≠ f) : T.Fits f K := fun m hm hf => absurd hf (h m hm)

theorem after_of_ne (h : ∀ m ∈ K, m.frame ≠ f) : T.after f K = T := by
  funext x
  exact if_neg fun hm => h _ hm rfl

/-- Meetings that leave everything as it stands. -/
theorem after_eq_self (h : ∀ m ∈ K, m.frame = f → T m.spot = m.standing) : T.after f K = T := by
  funext x
  unfold after
  split
  next hm => exact (h _ hm rfl).symm
  next => rfl

end Marks

open Marks

variable {f : Frame} {spot : Spot} {K L : List Meeting} {T T₀ T₁ U U₀ : Marks}
  {l l₀ l₁ : List Spot}

/-- **A computation passes**: its meetings, the marks before and after it, and the log, which grows
by applications that were not under way. -/
structure Passes (f : Frame) (K : List Meeting) (T : Marks) (l : List Spot) (T₁ : Marks)
    (l₁ : List Spot) : Prop where
  fits : T.Fits f K
  marks : T₁ = T.after f K
  log : ∃ more, l₁ = l ++ more ∧ ∀ x ∈ more, T x = none

namespace Passes

theorem refl : Passes f [] T l T l := ⟨fits_nil, after_nil.symm, [], by simp, by simp⟩

theorem trans {T₂ : Marks} {l₂ : List Spot} (h : Passes f K T l T₁ l₁)
    (h' : Passes f L T₁ l₁ T₂ l₂) : Passes f (K ++ L) T l T₂ l₂ := by
  obtain ⟨more, hl, hmore⟩ := h.log
  obtain ⟨more', hl', hmore'⟩ := h'.log
  have hfits := h'.fits
  rw [h.marks] at hfits
  refine ⟨fits_append.2 ⟨h.fits, hfits⟩, ?_, more ++ more', ?_, fun x hx => ?_⟩
  · rw [h'.marks, h.marks, after_append]
  · rw [hl', hl, List.append_assoc]
  · rcases List.mem_append.1 hx with hx | hx
    · exact hmore x hx
    · -- it was not under way in between, and being met does not end anything
      have hnone := hmore' x hx
      rw [h.marks] at hnone
      exact h.fits.after_eq_none.1 hnone

end Passes

/-! ### An application under way -/

theorem mem_closed {m : Meeting} :
    m ∈ closed f spot K ↔ m = ⟨f, spot, none⟩ ∨ (m ∈ K ∧ ¬ (m.frame = f ∧ m.spot = spot)) := by
  simp only [closed, List.mem_cons, List.mem_filter, decide_eq_true_eq]

/-- What the end of `spot` leaves of the meetings with running bodies: those with other ones. -/
theorem running_mem_closed {x : Spot} (hx : x ≠ spot) :
    ⟨f, x, some (.running true)⟩ ∈ closed f spot K ↔ ⟨f, x, some (.running true)⟩ ∈ K := by
  rw [mem_closed]
  constructor
  · rintro (h | ⟨h, -⟩)
    · cases h
    · exact h
  · exact fun h => .inr ⟨h, fun hs => hx hs.2⟩

/-- **An application is under way** as `mark`, and its body is about to run: outside of it the marks
are `T` after what was met since, and the log is what it was with the application on top. -/
structure Opened (f : Frame) (spot : Spot) (mark : Mark) (T : Marks) (l : List Spot)
    (K : List Meeting) (T₀ : Marks) (l₀ : List Spot) : Prop where
  idle : T spot = none
  own : ∀ m ∈ K, m.frame = f → m.spot = spot → m.standing = none
  fits : T.Fits f K
  marks : T₀ = (T.after f K).set spot (some mark)
  log : l₀ = l ++ [spot]

/-- **The body has run**: what it met is closed, and only the application itself may still be under
way. -/
structure Within (f : Frame) (spot : Spot) (T : Marks) (l : List Spot) (K : List Meeting)
    (T₁ : Marks) (l₁ : List Spot) : Prop where
  idle : T spot = none
  self : ⟨f, spot, none⟩ ∈ K
  own : ∀ m ∈ K, m.frame = f → m.spot = spot → m.standing = none
  fits : T.Fits f K
  marks : ∀ x, x ≠ spot → T₁ x = T.after f K x
  log : ∃ more, l₁ = l ++ spot :: more ∧ ∀ x ∈ more, x ≠ spot ∧ T x = none

/-- An application begins. -/
theorem Opened.begin (h : T spot = none) :
    Opened f spot (.running false) T l [] (T.set spot (some (.running false))) (l ++ [spot]) where
  idle := h
  own := fun m hm => by cases hm
  fits := fits_nil
  marks := by rw [after_nil]
  log := rfl

namespace Opened

variable {mark : Mark}

/-- What the body met outside of the application is met outside of it as well. -/
theorem met_outside (h : Opened f spot mark T l K T₀ l₀) {x : Spot} (hx : x ≠ spot) :
    (T₀ x).map Mark.met = (T x).map Mark.met := by
  rw [h.marks, set_of_ne hx, h.fits.met_after]

/-- **After the body**, from what it met. -/
theorem within (h : Opened f spot mark T l K T₀ l₀) (hp : Passes f L T₀ l₀ T₁ l₁) :
    Within f spot T l (closed f spot (K ++ L)) T₁ l₁ where
  idle := h.idle
  self := mem_closed.2 (.inl rfl)
  own m hm hf hs := by
    rcases mem_closed.1 hm with rfl | ⟨-, hne⟩
    · rfl
    · exact absurd ⟨hf, hs⟩ hne
  fits m hm hf := by
    rcases mem_closed.1 hm with rfl | ⟨hm, hne⟩
    · rw [h.idle]; rfl
    · rcases List.mem_append.1 hm with hm | hm
      · exact h.fits m hm hf
      · rw [← h.met_outside fun hs => hne ⟨hf, hs⟩]
        exact hp.fits m hm hf
  marks x hx := by
    rw [hp.marks]
    unfold Marks.after
    rw [h.marks, set_of_ne hx]
    unfold Marks.after
    by_cases hK : ⟨f, x, some (.running true)⟩ ∈ K
    · simp [running_mem_closed hx, hK]
    · simp [running_mem_closed hx, hK]
  log := by
    obtain ⟨more, hl, hmore⟩ := hp.log
    refine ⟨more, by rw [hl, h.log, List.append_assoc]; rfl, fun x hx => ?_⟩
    have hnone := hmore x hx
    -- the application was under way all the time, so the body cannot have begun it
    have hne : x ≠ spot := by
      rintro rfl
      rw [h.marks, set_self] at hnone
      cases hnone
    rw [h.marks, set_of_ne hne] at hnone
    exact ⟨hne, h.fits.after_eq_none.1 hnone⟩

/-- **The same body elsewhere**: under other marks with the application open in the same way, the
meetings of the body fit if those that remain of them fit outside. -/
theorem fits_of_closed {l' l₀' : List Spot} (h : Opened f spot mark T l K T₀ l₀)
    (h' : Opened f spot mark U l' K U₀ l₀') (hL : T₀.Fits f L)
    (hU : U.Fits f (closed f spot (K ++ L))) : U₀.Fits f L := by
  intro m hm hf
  by_cases hs : m.spot = spot
  · -- the body met its own application, which stands the same here
    have hT := hL m hm hf
    rw [h.marks, hs, set_self] at hT
    rw [h'.marks, hs, set_self]
    exact hT
  · rw [h'.met_outside hs]
    exact hU m (mem_closed.2 (.inr ⟨List.mem_append_right _ hm, fun h => hs h.2⟩)) hf

/-- How the application itself stands after the body depends on the meetings only. -/
theorem after_self (h : Opened f spot mark T l K T₀ l₀) :
    T₀.after f L spot =
      if ⟨f, spot, some (.running true)⟩ ∈ L then some (.running true) else some mark := by
  unfold Marks.after
  rw [h.marks, set_self]

end Opened

namespace Within

/-- The application runs again, from a seed. -/
theorem reopen (h : Within f spot T l K T₁ l₁) (mark : Mark) :
    Opened f spot mark T l K (T₁.set spot (some mark)) (l ++ [spot]) where
  idle := h.idle
  own := h.own
  fits := h.fits
  marks := by
    funext x
    by_cases hx : x = spot
    · rw [hx, set_self, set_self]
    · rw [set_of_ne hx, set_of_ne hx, h.marks x hx]
  log := rfl

/-- The application ends. -/
theorem leave (h : Within f spot T l K T₁ l₁) : Passes f K T l (T₁.set spot none) l₁ where
  fits := h.fits
  marks := by
    funext x
    by_cases hx : x = spot
    · subst hx
      -- the meetings are closed, so none of them is with the application itself
      have hnot : ⟨f, x, some (.running true)⟩ ∉ K := fun hm => by
        have hs := h.own _ hm rfl rfl
        cases hs
      rw [set_self, Marks.after, if_neg hnot, h.idle]
    · rw [set_of_ne hx, h.marks x hx]
  log := by
    obtain ⟨more, hl, hmore⟩ := h.log
    refine ⟨spot :: more, hl, fun x hx => ?_⟩
    rcases List.mem_cons.1 hx with rfl | hx
    · exact h.idle
    · exact (hmore x hx).2

/-- What was begun since is not under way any more, so nothing under way is forgotten. -/
theorem of_mem_drop (h : Within f spot T l K T₁ l₁) {x : Spot} (hx : x ∈ l₁.drop (l.length + 1)) :
    x ≠ spot ∧ T₁ x = none := by
  obtain ⟨more, rfl, hmore⟩ := h.log
  have hx : x ∈ more := by
    rw [List.drop_append, List.drop_eq_nil_of_le (by omega)] at hx
    simpa using hx
  obtain ⟨hne, hnone⟩ := hmore x hx
  exact ⟨hne, by rw [h.marks x hne]; exact h.fits.after_eq_none.2 hnone⟩

theorem take_log (h : Within f spot T l K T₁ l₁) : l₁.take (l.length + 1) = l ++ [spot] := by
  obtain ⟨more, rfl, -⟩ := h.log
  rw [List.take_append, List.take_of_length_le (by omega)]
  simp

/-- The log may be cut back to the application. -/
theorem cut (h : Within f spot T l K T₁ l₁) : Within f spot T l K T₁ (l ++ [spot]) :=
  { h with log := ⟨[], rfl, fun x hx => by cases hx⟩ }

end Within

end Packrat
