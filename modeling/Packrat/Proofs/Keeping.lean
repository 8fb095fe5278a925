import Packrat.Proofs.Blindness
import Packrat.Proofs.Ripening

/-!
# Keeping results

Whether results are kept makes no difference to a match that stays undisturbed. An application that
is under way is met in the same way in both matches; a kept result that is used is one that a new
computation yields here; and what is not in the table ripens in step.

This fails without the condition: where a rule is first asked for while another one runs that it
rests on, and again when that one has ended, the kept result is stale, and it is used all the same.

* `watched_beside`: an application under watch beside one without kept results.
* `Engine.matchRule_keeping`: an undisturbed match comes to the same with kept results as without.
* `Engine.matchRule_crossing`: a match that is disturbed, and comes to something else.
-/

namespace Packrat

open Marks

variable {φ : Type} [Account φ] {registry : Registry} {limit : Nat} {f : Frame} {call : Call}
  {s : State (Watch φ)} {t : State φ} {bodyW : Attempt (Watch φ)} {body : Attempt φ}

/-! ### Applications in the table -/

/-- An application under way is met and noted. -/
theorem watched_of_mark {mark : Mark} (hm : s.memo.marks (s.pos, call) = some mark) :
    watched f call bodyW s =
      memoized true f call (closing f (s.pos, call) bodyW)
        (s.note ⟨f, (s.pos, call), some mark.met⟩) := by
  have hd : s.disturbed f call = false := by
    unfold State.disturbed
    unfold Memo.marks at hm
    cases hg : s.memo.get? (s.pos, call) with
    | none => rfl
    | some entry =>
      rw [hg] at hm
      cases entry with
      | active again => rfl
      | done v stop a =>
        cases v with
        | none => cases hm
        | some v =>
          by_cases ha : a.met = []
          · simp [ha, Memo.stale]
          · simp [Entry.mark?, ha] at hm
  unfold watched State.meet
  rw [hd, hm]
  rfl

/-- A running body is met: the application fails here, in both matches. -/
theorem Beside.running {again : Bool} (hpos : s.pos = t.pos)
    (hs : s.memo.Reliable registry limit f)
    (hg : s.memo.get? (s.pos, call) = some (.active again)) :
    Beside registry limit f s t (watched f call bodyW s) (memoized false f call body t) := by
  have hm : s.memo.marks (s.pos, call) = some (.running again) := by
    unfold Memo.marks
    rw [hg]
    rfl
  have hafter : ∀ T : Marks, T.after f [⟨f, (s.pos, call), some (.running true)⟩] =
      T.set (s.pos, call) (some (.running true)) := by
    intro T
    funext x
    by_cases hx : x = (s.pos, call)
    · simp [Marks.after, Marks.set, hx]
    · simp [Marks.after, Marks.set, hx]
  have hnoted : (s.note ⟨f, (s.pos, call), some (.running true)⟩).memo.get?
      ((s.note ⟨f, (s.pos, call), some (.running true)⟩).pos, call) = some (.active again) := hg
  rw [watched_of_mark hm, Mark.met, memoized_of_active hnoted]
  refine ⟨[⟨f, (s.pos, call), some (.running true)⟩], ⟨rfl, ?_, ⟨?_, ?_, [], ?_, ?_⟩, ?_⟩,
    fun ha T hT hfits => .inr ?_⟩
  · intro m hm'
    rw [List.mem_singleton.1 hm']
    exact .inl rfl
  · intro m hm' _
    rw [List.mem_singleton.1 hm', hm]
    rfl
  · rw [hafter]
    exact Memo.marks_set _
  · exact (List.append_nil _).symm
  · simp
  · exact hs.set trivial
  · -- the application is running in the other match, too
    have hT' := hfits _ (List.mem_singleton.2 rfl) rfl
    obtain ⟨mark, hmark, hmet⟩ := Option.map_eq_some_iff.1 hT'
    cases mark with
    | seed v stop => cases hmet
    | running again' =>
      have hg' : t.memo.get? (t.pos, call) = some (.active again') := by
        rw [← hpos, hT, hmark]
        rfl
      rw [memoized_of_active hg', ← hpos]
      refine ⟨_, _, rfl, rfl, ha, hT.set (.running true), hfits, (hafter T).symm, [], ?_, ?_⟩
      · exact (List.append_nil _).symm
      · simp

/-- A seed is met: the application gives it, in both matches. -/
theorem Beside.seed {v : Value} {stop : Nat} (hpos : s.pos = t.pos)
    (hs : s.memo.Reliable registry limit f)
    (hg : s.memo.get? (s.pos, call) = some (.done (some v) stop Account.empty)) :
    Beside registry limit f s t (watched f call bodyW s) (memoized false f call body t) := by
  have hm : s.memo.marks (s.pos, call) = some (.seed v stop) := by
    unfold Memo.marks
    rw [hg]
    rfl
  have hpass : ∀ (T : Marks) (l : List Spot), T.Fits f [⟨f, (s.pos, call), some (.seed v stop)⟩] →
      Passes f [⟨f, (s.pos, call), some (.seed v stop)⟩] T l T l := by
    intro T l hfits
    refine ⟨hfits, ?_, [], by simp, by simp⟩
    funext x
    simp [Marks.after]
  have hnoted : (s.note ⟨f, (s.pos, call), some (.seed v stop)⟩).memo.get?
      ((s.note ⟨f, (s.pos, call), some (.seed v stop)⟩).pos, call) =
        some (.done (some v) stop Account.empty) := hg
  rw [watched_of_mark hm, Mark.met, memoized_of_done hnoted]
  refine ⟨[⟨f, (s.pos, call), some (.seed v stop)⟩], ⟨List.append_nil _, ?_, hpass _ _ ?_, hs⟩,
    fun ha T hT hfits => .inr ?_⟩
  · intro m hm'
    rw [List.mem_singleton.1 hm']
    exact .inl rfl
  · intro m hm' _
    rw [List.mem_singleton.1 hm', hm]
    rfl
  · have hT' := hfits _ (List.mem_singleton.2 rfl) rfl
    obtain ⟨mark, hmark, hmet⟩ := Option.map_eq_some_iff.1 hT'
    cases mark with
    | running again => cases hmet
    | seed v' stop' =>
      cases hmet
      have hg' : t.memo.get? (t.pos, call) = some (.done (some v) stop Account.empty) := by
        rw [← hpos, hT, hmark]
        rfl
      rw [memoized_of_done hg']
      refine ⟨_, T, rfl, rfl, ?_, hT, hpass _ _ hfits⟩
      show Account.append t.account Account.empty = Account.append s.account.account Account.empty
      rw [ha]

/-- **A kept result is used**: unless it is stale, it is what a new computation yields here. -/
theorem Beside.kept {v : Option Value} {stop : Nat} {a : Watch φ}
    (hs : s.memo.Reliable registry limit f)
    (hg : s.memo.get? (s.pos, call) = some (.done v stop a))
    (hk : Kept registry limit f (s.pos, call) v stop a)
    (hy : Yields f a.met v (if v.isSome then stop else s.pos) (Account.append t.account a.account) t
      (memoized false f call body t)) :
    Beside registry limit f s t (watched f call bodyW s) (memoized false f call body t) := by
  have hm : s.memo.marks (s.pos, call) = none := by
    unfold Memo.marks
    rw [hg]
    cases v with
    | none => rfl
    | some v => simp [Entry.mark?, hk.met]
  unfold watched State.disturbed State.meet
  rw [hg, hm]
  dsimp only
  split
  · exact .inr (.inl rfl)
  next hstale =>
    -- all that the kept result met stands now as it stood then
    have hstands : ∀ m ∈ a.met, m.frame = f → s.memo.marks m.spot = m.standing := by
      intro m hmem hf
      have hnot := List.any_eq_false.1 (Bool.eq_false_iff.2 hstale) m hmem
      simpa [hf] using hnot
    rw [memoized_of_done hg]
    refine ⟨a.met, ⟨rfl, hk.inward, ⟨fun m hmem hf => ?_, (after_eq_self hstands).symm, [], ?_, ?_⟩,
      hs⟩, fun ha => ?_⟩
    · rw [hstands m hmem hf]
      exact hk.normal m hmem hf
    · simp [State.moveTo, State.missed]
    · simp
    · rw [ha] at hy
      exact hy

/-! ### Applications that are not in the table -/

/-- A fresh application is open under watch. -/
theorem opened_entered (hm : s.memo.marks (s.pos, call) = none) :
    Opened f (s.pos, call) (.running false) s.memo.marks s.memo.log.toList
      (s.entered call).account.met (s.entered call).memo.marks
      (s.entered call).memo.log.toList := by
  show Opened _ _ _ _ _ [] (s.memo.begin (s.pos, call)).marks (s.memo.begin _).log.toList
  rw [Memo.marks_begin, Memo.log_begin, Array.toList_push]
  exact .begin hm

/-- A fresh application ends under watch: its result is kept, and it is not under way any more. -/
theorem Inside.proceeds {v : Option Value} {w : State (Watch φ)}
    (hi : Inside registry limit f (s.pos, call) s.memo.marks s.memo.log.toList w)
    (hk : Kept registry limit f (s.pos, call) v w.pos
      (Account.ofRule f call.rule s.pos v.isNone w.account)) :
    Proceeds registry limit f s (s.left true f call v w) w.account.met where
  met := rfl
  inward := hi.inward
  passes := by
    have hmarks : (s.left true f call v w).memo.marks = w.memo.marks.set (s.pos, call) none := by
      show (w.memo.set _ _).marks = _
      rw [Memo.marks_set]
      congr 1
      cases v with
      | none => rfl
      | some v => simpa [Entry.mark?] using hk.met
    rw [hmarks]
    exact hi.within.leave
  reliable := hi.reliable.set (.inr hk)

section Fresh

variable {bodyN : Nat → Attempt φ}
  (hb : ∀ n (w : State (Watch φ)) (t : State φ), w.pos = t.pos →
    w.memo.Reliable registry limit f → Beside registry limit f w t (bodyW w) (bodyN n t))

include hb

/-- A fresh application ripens in the other match as it does under watch. -/
theorem echoes_entered (hs : s.memo.Reliable registry limit f)
    (hm : s.memo.marks (s.pos, call) = none) (n : Nat) (t : State φ) (U : Marks)
    (ht : t.pos = s.pos) (hU : Shows t.memo U) (hidle : U (s.pos, call) = none) :
    Echoes f (s.pos, call) s.memo.marks U t.memo.log.toList
      (ripened (closing f (s.pos, call) bodyW) f (s.pos, call) s.memo.mark (s.entered call))
      (ripened (bodyN n) f (s.pos, call) t.memo.mark (t.entered call)) := by
  have hshow : Shows (t.entered call).memo (U.set (s.pos, call) (some (.running false))) := by
    show Shows (t.memo.begin (t.pos, call)) _
    rw [ht]
    exact hU.begin
  have hopened : Opened f (s.pos, call) (.running false) U t.memo.log.toList
      (s.entered call).account.met (U.set (s.pos, call) (some (.running false)))
      (t.entered call).memo.log.toList := by
    show Opened _ _ _ _ _ [] _ (t.memo.begin (t.pos, call)).log.toList
    rw [Memo.log_begin, Array.toList_push, ht]
    exact .begin hidle
  have hin : Inward f (s.entered call).account.met := fun m hmem => by cases hmem
  exact ripened_echoes (hb n) (opened_entered hm) hin hs.begin ht rfl hshow hopened

/-- **What a fresh application came to under watch**, a new computation yields. -/
theorem yields_entered (hs : s.memo.Reliable registry limit f)
    (hm : s.memo.marks (s.pos, call) = none) {v : Option Value} {w : State (Watch φ)}
    (hr : ripened (closing f (s.pos, call) bodyW) f (s.pos, call) s.memo.mark (s.entered call) =
      .ok (v, w))
    (hi : Inside registry limit f (s.pos, call) s.memo.marks s.memo.log.toList w) (n : Nat)
    (t : State φ) (ht : t.pos = s.pos) :
    Yields f w.account.met v (if v.isSome then w.pos else s.pos)
      (Account.append t.account (Account.ofRule f call.rule s.pos v.isNone w.account.account)) t
      (memoized false f call (bodyN n) t) := by
  intro U hU hfits
  -- the meetings say that the application was not under way
  have hidle : U (s.pos, call) = none := Option.map_eq_none_iff.1 (hfits _ hi.within.self rfl)
  have hg : t.memo.get? (t.pos, call) = none := by
    rw [ht, hU, hidle]
    rfl
  have he := echoes_entered hb hs hm n t U ht hU hidle
  rw [hr] at he
  rw [memoized_of_none hg, ht]
  rcases he hfits with hlim | ⟨t', U₁, hn, hpos', hacc', hshow', -, hwithin'⟩
  · exact .inl (hlim.bind _)
  rw [hn]
  refine .inr ⟨t.left false f call v t', U₁.set (s.pos, call) none, rfl, ?_, ?_, ?_, ?_⟩
  · show (if v.isSome then t'.pos else t.pos) = _
    rw [hpos', ht]
  · show Account.append t.account (Account.ofRule f call.rule t.pos v.isNone t'.account) = _
    rw [ht, hacc']
  · show Shows (t'.memo.erase (t.pos, call)) _
    rw [ht]
    exact hshow'.erase
  · exact hwithin'.leave

/-- **A fresh application**: what it leaves in the table is what a new computation yields. -/
theorem Beside.fresh
    (hbody : ∀ r, call.owner.rule? call.rule = some r → ∀ n,
      runBody (applyKeyed (memoized false) registry limit n) registry f call.dispatch call.owner r
        call.args = bodyN n)
    (hpos : s.pos = t.pos) (hs : s.memo.Reliable registry limit f)
    (hg : s.memo.get? (s.pos, call) = none) (n : Nat) :
    Beside registry limit f s t (watched f call bodyW s) (memoized false f call (bodyN n) t) := by
  have hm : s.memo.marks (s.pos, call) = none := by
    unfold Memo.marks
    rw [hg]
    rfl
  have hw : watched f call bodyW s = memoized true f call (closing f (s.pos, call) bodyW) s := by
    unfold watched State.disturbed State.meet
    rw [hg, hm]
    rfl
  rw [hw, memoized_of_none hg]
  cases hr : ripened (closing f (s.pos, call) bodyW) f (s.pos, call) s.memo.mark
      (s.entered call) with
  | error halt =>
    -- the other match starts from the same marks, so the application is fresh there, too
    by_cases hl : halt.isLimit = true ∨ halt = .exhausted
    · exact hl.imp id .inl
    refine .inr (.inr fun _ hT => ?_)
    have hg' : t.memo.get? (t.pos, call) = none := by
      rw [← hpos, hT, hm]
      rfl
    have he := echoes_entered hb hs hm n t _ hpos.symm hT hm
    rw [hr] at he
    rw [memoized_of_none hg', ← hpos]
    rcases (he.resolve_left fun h => hl (.inl h)).resolve_left (fun h => hl (.inr h)) rfl with
      hlim | herr
    · exact .inl (hlim.bind _)
    · rw [herr]
      exact .inr rfl
  | ok r =>
    obtain ⟨v, w⟩ := r
    -- what the application leaves behind is a result to keep
    have hi : Inside registry limit f (s.pos, call) s.memo.marks s.memo.log.toList w :=
      ripened_inside (hb n) (opened_entered hm) (fun m hmem => by cases hmem) hs.begin hr
    have hyields := yields_entered hb hs hm hr hi
    have hkept : Kept registry limit f (s.pos, call) v w.pos
        (Account.ofRule f call.rule s.pos v.isNone w.account) := by
      refine ⟨List.ne_nil_of_mem hi.within.self, hi.inward, fun m hmem hf => ?_,
        fun r hr n t ht => ?_⟩
      · -- meetings are noted after the fact, and being met twice changes nothing more
        rw [← hi.within.fits m hmem hf, Option.map_map]
        cases s.memo.marks m.spot with
        | none => rfl
        | some mark => cases mark <;> rfl
      · rw [hbody r hr n]
        exact hyields n t ht
    refine ⟨w.account.met, hi.proceeds hkept, fun ha => ?_⟩
    have hy := hyields n t hpos.symm
    rw [ha] at hy
    exact hy

end Fresh

/-! ### All applications -/

variable (registry limit) in
/-- **Applications are in step** under watch and without kept results, at any two depths. -/
theorem watched_beside (depth n : Nat) :
    (besides φ registry limit).InStep (applyKeyed watched registry limit depth)
      (applyKeyed (memoized false) registry limit n) := by
  induction depth generalizing n with
  | zero => exact fun _ _ _ _ _ _ _ _ _ _ => .inl rfl
  | succ depth ih =>
    intro f d o r args s t hr hpos hs
    have hb : ∀ n (w : State (Watch φ)) (t : State φ), w.pos = t.pos →
        w.memo.Reliable registry limit f → Beside registry limit f w t
          (runBody (applyKeyed watched registry limit depth) registry f d o r
            (Value.signatures args) w)
          (runBody (applyKeyed (memoized false) registry limit n) registry f d o r
            (Value.signatures args) t) :=
      fun n w t => Coupling.runBody_of_rules registry (fun _ => trivial) (ih n) f d o r _ w t
    -- it is enough to look at runs that get as far as to the table
    suffices h : ∀ n, Beside registry limit f s t
        (applyKeyed watched registry limit (depth + 1) f d o r args s)
        (applyKeyed (memoized false) registry limit (n + 1) f d o r args t) by
      cases n with
      | zero => exact (h 0).of_limited ⟨_, rfl, rfl⟩
      | succ n => exact h n
    intro n
    have hrule : ∀ r', o.rule? r.name = some r' → r' = r := fun r' hr' =>
      Option.some.inj (hr'.symm.trans hr)
    cases hg : s.memo.get? (s.pos, r.call d o args) with
    | none =>
      refine Beside.fresh hb (fun r' hr' n => ?_) hpos hs hg n
      obtain rfl := hrule r' hr'
      rfl
    | some entry =>
      cases entry with
      | active again => exact .running hpos hs hg
      | done v stop a =>
        rcases hs _ _ hg with ⟨hv, rfl⟩ | hk
        · obtain ⟨v, rfl⟩ := Option.isSome_iff_exists.1 hv
          exact .seed hpos hs hg
        · exact .kept hs hg hk (hk.yields r hr n t hpos.symm)

/-! ### Whole matches -/

namespace Engine

/-- A keyed match that stays undisturbed comes to the same with kept results as without, unless one
of the two is cut off for its depth. -/
theorem startKeyed_keeping (e : Engine) (g : Grammar) (rule : String) (input : Input)
    (args : List Value) (toEnd : Bool) (hu : e.undisturbed g rule input args = true)
    (hkept : ¬ Limited (e.startKeyed (φ := Furthest) (memoized true) g rule input args))
    (hanew : ¬ Limited (e.startKeyed (φ := Furthest) (memoized false) g rule input args)) :
    (e.startKeyed (memoized true) g rule input args).map (conclude input toEnd) =
      (e.startKeyed (memoized false) g rule input args).map (conclude input toEnd) := by
  -- with kept results the match goes as it does under watch, and that goes as without kept results
  have hfollows : Follows _ _ (e.startKeyed (memoized true) g rule input args)
      (e.startKeyed (watched (φ := Furthest)) g rule input args) :=
    Coupling.applyName_of_rules (fun _ => trivial)
      (memoized_follows_watched e.registry e.options.maxDepth e.options.maxDepth) { input } g rule
      args _ _ ⟨rfl, Likeness.fresh _, rfl⟩
  have hbeside : Beside e.registry e.options.maxDepth { input } (.start Account.empty)
      (.start Account.empty) (e.startKeyed (watched (φ := Furthest)) g rule input args)
      (e.startKeyed (memoized false) g rule input args) :=
    Coupling.applyName_of_rules (fun _ => trivial)
      (watched_beside e.registry e.options.maxDepth e.options.maxDepth e.options.maxDepth) { input }
      g rule args _ _ rfl .empty
  unfold undisturbed at hu
  cases hw : e.startKeyed (watched (φ := Furthest)) g rule input args with
  | error halt =>
    rw [hw] at hfollows hbeside hu
    have hne : halt ≠ .exhausted := fun h => by rw [h] at hu; cases hu
    have hk : e.startKeyed (memoized true) g rule input args = .error halt :=
      hfollows.resolve_left hne
    have hl : ¬ halt.isLimit = true := fun hl => hkept ⟨halt, hk, hl⟩
    rcases (hbeside.resolve_left hl).resolve_left hne rfl Shows.empty with hlim | ha
    · exact absurd hlim hanew
    · rw [hk, ha]
  | ok r =>
    obtain ⟨v, w⟩ := r
    rw [hw] at hfollows hbeside
    obtain ⟨s, hs, hl⟩ := hfollows
    obtain ⟨K, hp, hy⟩ := hbeside
    rcases hy rfl _ Shows.empty hp.passes.fits with hlim | ⟨t, T, ht, hpos, hacc, -, -⟩
    · exact absurd hlim hanew
    · rw [hs, ht]
      have hpos' : s.pos = t.pos := hl.pos.trans hpos.symm
      have hacc' : s.account = t.account := hl.accounts.trans hacc.symm
      exact congrArg Except.ok (conclude_congr hpos' hacc')

/-- **Keeping results makes no difference to an undisturbed match**, if the functions of actions
cannot tell NaNs apart. If no kept result is used while something that it came upon stands
otherwise, and neither match is cut off for its depth, then the engine gives the same answer whether
it keeps results or not, up to the bits of NaNs: the same value and position, the same failure, or
the same error. -/
theorem matchRule_keeping (e : Engine) (hb : e.registry.Blind) (g : Grammar) (rule : String)
    (input : Input) (args : List Value) (hu : e.undisturbed g rule input args = true)
    (hkept : ∀ limit,
      (e.keeping true).matchRule g rule input args ≠ .error (.recursionLimit limit))
    (hanew : ∀ limit,
      (e.keeping false).matchRule g rule input args ≠ .error (.recursionLimit limit)) :
    ((e.keeping true).matchRule g rule input args).map Outcome.signature =
      ((e.keeping false).matchRule g rule input args).map Outcome.signature := by
  have hkept : ¬ Limited ((e.keeping true).run g rule input args false) :=
    (e.keeping true).not_limited hkept
  have hanew : ¬ Limited ((e.keeping false).run g rule input args false) :=
    (e.keeping false).not_limited hanew
  -- a run is cut off if the keyed one is
  have hcut (keep : Bool) (h : Limited (e.startKeyed (φ := Furthest) (memoized keep) g rule input
      args)) : Limited ((e.keeping keep).run g rule input args false) := by
    have hlim := (h.map (conclude input false)).map Outcome.signature
    rw [← run_keyed e hb] at hlim
    exact hlim.of_map
  have hkeyed := startKeyed_keeping e g rule input args false hu (fun h => hkept (hcut true h))
    fun h => hanew (hcut false h)
  unfold matchRule
  rw [map_mapError_signature, map_mapError_signature, run_keyed e hb, run_keyed e hb, hkeyed]
  rfl

/-- Two rules that start with each other: `a = b 'x' / 'y'` and `b = a 'z' / 'w'`. -/
def turns : Draft :=
  { name := "Turns"
    rules := [
      { name := "a", body := .choice [.sequence [.apply "b" [], .literal "x"], .literal "y"] },
      { name := "b", body := .choice [.sequence [.apply "a" [], .literal "z"], .literal "w"] }] }

/-- Indirect left recursion: what `b` came to while `a` had no seed is forgotten when `a` grows. -/
theorem matchRule_turns :
    ({} : Engine).undisturbed turns.freeze "a" (.ofString "yzxzx") [] = true ∧
      ((({} : Engine).keeping true).matchRule turns.freeze "a" (.ofString "yzxzx") []).map
          Outcome.signature =
        ((({} : Engine).keeping false).matchRule turns.freeze "a" (.ofString "yzxzx") []).map
          Outcome.signature := by
  have hu : ({} : Engine).undisturbed turns.freeze "a" (.ofString "yzxzx") [] = true := by
    decide +kernel
  have hkept : ((({} : Engine).keeping true).matchRule turns.freeze "a" (.ofString "yzxzx")
      []).toOption.isSome = true := by decide +kernel
  have hanew : ((({} : Engine).keeping false).matchRule turns.freeze "a" (.ofString "yzxzx")
      []).toOption.isSome = true := by decide +kernel
  refine ⟨hu, matchRule_keeping {} Registry.standard_blind turns.freeze "a" (.ofString "yzxzx") [] hu
    ?_ ?_⟩
  · intro limit hl
    rw [hl] at hkept
    cases hkept
  · intro limit hl
    rw [hl] at hanew
    cases hanew

/-- Two rules that rest on each other and are entered from two sides: `start = a / b`,
`a = ~b 'b'` and `b = a 'c' / 'b'`. -/
def crossing : Draft :=
  { name := "Crossing"
    rules := [
      { name := "start", body := .choice [.apply "a" [], .apply "b" []] },
      { name := "a", body := .sequence [.lookahead true (.apply "b" []), .literal "b"] },
      { name := "b", body := .choice [.sequence [.apply "a" [], .literal "c"], .literal "b"] }] }

/-- The first alternative asks for `b` while `a` runs, so `b` comes to `'b'`, and `a` fails. The
second alternative asks for `b` when `a` has ended: the kept result is still `'b'`, but a new
computation comes to `'c'`, one character further. -/
theorem matchRule_crossing :
    Grammar.Built crossing.freeze ∧
      (({} : Engine).keeping true).matchRule crossing.freeze "start" (.ofString "bc") [] =
        .ok (.success (.string "b") { input := .ofString "bc", pos := 1 }) ∧
      (({} : Engine).keeping false).matchRule crossing.freeze "start" (.ofString "bc") [] =
        .ok (.success (.string "c") { input := .ofString "bc", pos := 2 }) := by
  refine ⟨.freeze (fun p hp => by cases hp) (fun i hi => by cases hi) (by decide +kernel), ?_, ?_⟩
  · decide +kernel
  · decide +kernel

end Engine

end Packrat
