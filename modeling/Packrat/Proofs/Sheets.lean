import Packrat.Matcher.State
import Packrat.Proofs.Tables

/-!
# The table of a frame and what is done to it

A table is changed in few ways: an application begins, is met while it is under way, grows from a
seed in rounds, and returns. One that is found in the table is answered from there and never begins.
Growth forgets whatever began after the application that grows, while applications around it hold
marks into the same log. And where results are not kept, what has returned is gone from the table
but stays in the log, and may be logged again.

A sheet is a table together with the applications under way. What is done to it is a list of acts,
each of which has to fit where it is done. Whatever acts are done, as long as they fit, the table
stays in order: the marks are those of the applications under way, and what growth forgets is none
of them.

* `Act`, `Sheet.after`: what is done, and what becomes of a sheet.
* `Sheet.Fits`, `Sheet.Lawful`: which acts fit.
* `Sheet.InOrder`: the order of a sheet, which every act that fits keeps (`Sheet.InOrder.after`).
* `Sheet.InOrder.nodup_evaluated`: a body runs again only after growth has forgotten something.
* `Disciplined`: what is true of all that is done to the table of a frame.
-/

namespace Packrat

variable {φ : Type}

/-- What is done to a table for an application. -/
inductive Act (φ : Type)
  /-- It is noted, and its body runs. -/
  | begin (x : Spot)
  /-- It is met while it is under way. -/
  | meet (x : Spot)
  /-- Its value is put into the table as a seed: a round of growth starts. -/
  | sow (x : Spot) (seed : Value) (stop : Nat)
  /-- What began after it is forgotten, at the start of a round or at the end of growth. -/
  | clear (x : Spot)
  /-- Its body runs again, on top of the seed. -/
  | again (x : Spot)
  /-- It returns, and its result is kept or forgotten. -/
  | finish (x : Spot) (value : Option Value) (stop : Nat) (account : φ)

/-- The application whose body is evaluated from here on. -/
def Act.evaluated? : Act φ → Option Spot
  | begin x | again x => some x
  | _ => none

/-- How far an application under way is with a round. -/
inductive Phase
  /-- Its body runs. -/
  | running
  /-- Its seed was put into the table. -/
  | sown
  /-- What began after it was forgotten. -/
  | cleared
deriving DecidableEq

/-- An application that is under way. -/
structure Task where
  spot : Spot
  /-- Its place in the log. -/
  mark : Nat
  /-- The seed that it grows from, and where that ends. -/
  seed : Option (Value × Nat) := none
  phase : Phase := .running

/-- **The table of a frame**, and the applications under way there, the latest first. -/
structure Sheet (φ : Type) where
  memo : Memo φ := .empty
  tasks : List Task := []

/-- The table has the entry that an application under way has: it is active, or its seed. -/
def Task.Listed [Account φ] (m : Memo φ) (t : Task) : Prop :=
  match t.seed with
  | none => ∃ met, m.get? t.spot = some (.active met)
  | some (v, stop) => m.get? t.spot = some (.done (some v) stop Account.empty)

namespace Sheet

section Acts

variable [Account φ]

/-- **What becomes of a sheet.** Growth and return concern the latest application. -/
def after (keep : Bool) : Sheet φ → Act φ → Sheet φ
  | ⟨m, ts⟩, .begin x => ⟨m.begin x, { spot := x, mark := m.mark } :: ts⟩
  | ⟨m, ts⟩, .meet x => ⟨m.set x (.active true), ts⟩
  | ⟨m, t :: ts⟩, .sow x seed stop =>
    ⟨m.set x (.done (some seed) stop Account.empty),
      { t with seed := some (seed, stop), phase := .sown } :: ts⟩
  | ⟨m, t :: ts⟩, .clear _ => ⟨m.forgetAfter t.mark, { t with phase := .cleared } :: ts⟩
  | ⟨m, t :: ts⟩, .again _ => ⟨m, { t with phase := .running } :: ts⟩
  | ⟨m, _ :: ts⟩, .finish x value stop account =>
    ⟨if keep then m.set x (.done value stop account) else m.erase x, ts⟩
  | s, _ => s

/-- What becomes of a sheet by one act after the other. -/
def run (keep : Bool) (s : Sheet φ) (acts : List (Act φ)) : Sheet φ := acts.foldl (after keep) s

end Acts

/-- **Which acts fit a sheet.** Only an unknown application begins, only one under way is met. The
latest one grows if it was met, in rounds that store a seed, forget, and run the body again; it
returns when its body has come to an end without growth, or when growth has forgotten for the last
time. -/
inductive Fits : Sheet φ → Act φ → Prop
  | begin {m : Memo φ} {ts : List Task} {x : Spot} (h : m.get? x = none) : Fits ⟨m, ts⟩ (.begin x)
  | meet {m : Memo φ} {ts : List Task} {x : Spot} {met : Bool}
      (h : m.get? x = some (.active met)) : Fits ⟨m, ts⟩ (.meet x)
  | sow {m : Memo φ} {ts : List Task} {x : Spot} {mark : Nat} {old : Option (Value × Nat)}
      {seed : Value} {stop : Nat} (h : old = none → m.isLeftRecursive x = true) :
      Fits ⟨m, ⟨x, mark, old, .running⟩ :: ts⟩ (.sow x seed stop)
  | clear {m : Memo φ} {ts : List Task} {x : Spot} {mark : Nat} {seed : Value × Nat}
      {phase : Phase} (h : phase ≠ .cleared) :
      Fits ⟨m, ⟨x, mark, some seed, phase⟩ :: ts⟩ (.clear x)
  | again {m : Memo φ} {ts : List Task} {x : Spot} {mark : Nat} {seed : Value × Nat} :
      Fits ⟨m, ⟨x, mark, some seed, .cleared⟩ :: ts⟩ (.again x)
  | settle {m : Memo φ} {ts : List Task} {x : Spot} {mark : Nat} {value : Option Value}
      {stop : Nat} {account : φ} :
      Fits ⟨m, ⟨x, mark, none, .running⟩ :: ts⟩ (.finish x value stop account)
  | ripen {m : Memo φ} {ts : List Task} {x : Spot} {mark : Nat} {seed : Value} {stop : Nat}
      {account : φ} :
      Fits ⟨m, ⟨x, mark, some (seed, stop), .cleared⟩ :: ts⟩ (.finish x (some seed) stop account)

section

variable [Account φ]

/-- Acts that fit, each where those before it have led. -/
def Lawful (keep : Bool) : Sheet φ → List (Act φ) → Prop
  | _, [] => True
  | s, a :: acts => s.Fits a ∧ Lawful keep (s.after keep a) acts

variable {keep : Bool} {s : Sheet φ} {acts more : List (Act φ)}

@[simp] theorem run_nil : s.run keep [] = s := rfl

@[simp] theorem run_cons {a : Act φ} : s.run keep (a :: acts) = (s.after keep a).run keep acts :=
  rfl

@[simp] theorem run_append : s.run keep (acts ++ more) = (s.run keep acts).run keep more :=
  List.foldl_append

theorem lawful_append :
    s.Lawful keep (acts ++ more) ↔ s.Lawful keep acts ∧ (s.run keep acts).Lawful keep more := by
  induction acts generalizing s with
  | nil => simp [Lawful]
  | cons a acts ih => rw [List.cons_append, Lawful, Lawful, ih, run_cons, and_assoc]

end

end Sheet

/-! ### Where applications under way are logged -/

/-- **The places in the log of the applications under way**: each is where its mark says and nowhere
after that, and the later one began, the further on is its mark. -/
structure Logged (log : List Spot) (tasks : List Task) : Prop where
  distinct : (tasks.map Task.spot).Nodup
  marked : ∀ t ∈ tasks, log[t.mark]? = some t.spot
  later : tasks.Pairwise fun t u => u.mark < t.mark
  once : ∀ t ∈ tasks, t.spot ∉ log.drop (t.mark + 1)

namespace Logged

variable {log : List Spot} {t : Task} {ts : List Task}

theorem empty (log : List Spot) : Logged log [] := ⟨by simp, by simp, by simp, by simp⟩

theorem mark_lt (h : Logged log ts) (ht : t ∈ ts) : t.mark < log.length :=
  (List.getElem?_eq_some_iff.1 (h.marked t ht)).1

/-- One more application begins, which is not under way yet. -/
theorem begin {x : Spot} (h : Logged log ts) (hx : x ∉ ts.map Task.spot) :
    Logged (log ++ [x]) ({ spot := x, mark := log.length } :: ts) where
  distinct := List.nodup_cons.2 ⟨hx, h.distinct⟩
  marked := by
    intro t ht
    rcases List.mem_cons.1 ht with rfl | ht
    · simp
    · rw [List.getElem?_append_left (h.mark_lt ht)]
      exact h.marked t ht
  later := List.pairwise_cons.2 ⟨fun _ hu => h.mark_lt hu, h.later⟩
  once := by
    intro t ht
    rcases List.mem_cons.1 ht with rfl | ht
    · simp
    · have hne : t.spot ≠ x := fun he => hx (he ▸ List.mem_map_of_mem ht)
      rw [List.drop_append_of_le_length (h.mark_lt ht)]
      simp [h.once t ht, hne]

theorem tail (h : Logged log (t :: ts)) : Logged log ts where
  distinct := (List.nodup_cons.1 h.distinct).2
  marked u hu := h.marked u (List.mem_cons_of_mem _ hu)
  later := (List.pairwise_cons.1 h.later).2
  once u hu := h.once u (List.mem_cons_of_mem _ hu)

/-- How far the latest application is does not matter. -/
theorem head (h : Logged log (t :: ts)) {u : Task} (hs : u.spot = t.spot)
    (hm : u.mark = t.mark) : Logged log (u :: ts) where
  distinct := by
    rw [List.map_cons, hs]
    exact h.distinct
  marked := by
    intro w hw
    rcases List.mem_cons.1 hw with rfl | hw
    · rw [hs, hm]
      exact h.marked t (List.mem_cons_self ..)
    · exact h.tail.marked w hw
  later := by
    have := List.pairwise_cons.1 h.later
    exact List.pairwise_cons.2 ⟨fun w hw => hm ▸ this.1 w hw, this.2⟩
  once := by
    intro w hw
    rcases List.mem_cons.1 hw with rfl | hw
    · rw [hs, hm]
      exact h.once t (List.mem_cons_self ..)
    · exact h.tail.once w hw

/-- No mark is behind that of the latest application. -/
theorem mark_le (h : Logged log (t :: ts)) {u : Task} (hu : u ∈ t :: ts) : u.mark ≤ t.mark := by
  rcases List.mem_cons.1 hu with rfl | hu
  · exact Nat.le_refl _
  · exact Nat.le_of_lt ((List.pairwise_cons.1 h.later).1 u hu)

/-- **What is logged after an inner application** is none of those under way. -/
theorem spared (h : Logged log ts) {u : Task} (hu : u ∈ ts) {mark : Nat} (hm : u.mark ≤ mark) :
    u.spot ∉ log.drop (mark + 1) :=
  fun hx => h.once u hu ((List.drop_sublist_drop_left log (Nat.succ_le_succ hm)).mem hx)

/-- What was logged after the latest application is forgotten. -/
theorem clear (h : Logged log (t :: ts)) : Logged (log.take (t.mark + 1)) (t :: ts) where
  distinct := h.distinct
  marked := by
    intro u hu
    rw [List.getElem?_take_of_lt (Nat.lt_succ_of_le (h.mark_le hu))]
    exact h.marked u hu
  later := h.later
  once := by
    intro u hu hx
    exact h.once u hu (((List.take_sublist _ _).drop _).mem hx)

end Logged

/-! ### What applications under way have in the table -/

/-- **The entries of the applications under way**: each has its own, and nothing else is active. -/
structure Listed [Account φ] (m : Memo φ) (tasks : List Task) : Prop where
  entry : ∀ t ∈ tasks, t.Listed m
  active : ∀ x met, m.get? x = some (.active met) → x ∈ tasks.map Task.spot

namespace Task

variable [Account φ] {t u : Task} {m w : Memo φ}

/-- What an application under way has depends on its entry only, and on its seed. -/
theorem Listed.congr (h : t.Listed m) (hg : w.get? t.spot = m.get? t.spot)
    (hs : u.spot = t.spot) (hd : u.seed = t.seed) : u.Listed w := by
  unfold Listed at h ⊢
  rw [hs, hd, hg]
  exact h

theorem Listed.ne_none (h : t.Listed m) : m.get? t.spot ≠ none := by
  unfold Listed at h
  split at h
  · obtain ⟨met, h⟩ := h
    rw [h]
    simp
  · rw [h]
    simp

/-- An application under way whose entry is active has no seed. -/
theorem Listed.seed_eq_none (h : t.Listed m) {met : Bool}
    (ha : m.get? t.spot = some (.active met)) : t.seed = none := by
  unfold Listed at h
  split at h
  next hd => exact hd
  next =>
    rw [ha] at h
    cases h

end Task

namespace Listed

variable [Account φ] {m w : Memo φ} {t u : Task} {ts : List Task} {x : Spot}

theorem not_mem (h : Listed m ts) (hx : m.get? x = none) : x ∉ ts.map Task.spot := by
  intro hmem
  obtain ⟨t, ht, rfl⟩ := List.mem_map.1 hmem
  exact (h.entry t ht).ne_none hx

/-- An application begins that was unknown. -/
theorem begin (h : Listed m ts) (hx : m.get? x = none) {mark : Nat} :
    Listed (m.begin x) ({ spot := x, mark } :: ts) where
  entry := by
    intro t ht
    rcases List.mem_cons.1 ht with rfl | ht
    · exact ⟨false, by rw [Memo.get?_begin, if_pos rfl]⟩
    · have hne : t.spot ≠ x := fun he => h.not_mem hx (he ▸ List.mem_map_of_mem ht)
      exact (h.entry t ht).congr (by rw [Memo.get?_begin, if_neg hne]) rfl rfl
  active := by
    intro y met hy
    rw [Memo.get?_begin] at hy
    split at hy
    next he => exact he ▸ List.mem_cons_self ..
    next => exact List.mem_cons_of_mem _ (h.active y met hy)

/-- An application under way is met. -/
theorem meet (h : Listed m ts) {met : Bool} (hx : m.get? x = some (.active met)) :
    Listed (m.set x (.active true)) ts where
  entry := by
    intro t ht
    by_cases he : t.spot = x
    · have hseed := (h.entry t ht).seed_eq_none (he ▸ hx)
      unfold Task.Listed
      rw [hseed, he]
      exact ⟨true, by rw [Memo.get?_set, if_pos rfl]⟩
    · exact (h.entry t ht).congr (by rw [Memo.get?_set, if_neg he]) rfl rfl
  active := by
    intro y met' hy
    rw [Memo.get?_set] at hy
    split at hy
    next he => exact he ▸ h.active x met hx
    next => exact h.active y met' hy

/-- The latest application gets a seed. -/
theorem sow (h : Listed m (t :: ts)) (hnew : t.spot ∉ ts.map Task.spot) {seed : Value} {stop : Nat}
    {phase : Phase} :
    Listed (m.set t.spot (.done (some seed) stop Account.empty))
      ({ t with seed := some (seed, stop), phase } :: ts) where
  entry := by
    intro u hu
    rcases List.mem_cons.1 hu with rfl | hu
    · show Memo.get? _ _ = _
      rw [Memo.get?_set, if_pos rfl]
    · have hne : u.spot ≠ t.spot := fun he => hnew (he ▸ List.mem_map_of_mem hu)
      have hsame := Memo.get?_set m t.spot (.done (some seed) stop Account.empty) u.spot
      rw [if_neg hne] at hsame
      exact (h.entry u (List.mem_cons_of_mem _ hu)).congr hsame rfl rfl
  active := by
    intro y met hy
    rw [Memo.get?_set] at hy
    split at hy
    · cases hy
    · exact h.active y met hy

/-- How far the latest application is does not matter, only its seed does. -/
theorem head (h : Listed m (t :: ts)) (hs : u.spot = t.spot) (hd : u.seed = t.seed) :
    Listed m (u :: ts) where
  entry := by
    intro w hw
    rcases List.mem_cons.1 hw with rfl | hw
    · exact (h.entry t (List.mem_cons_self ..)).congr rfl hs hd
    · exact h.entry w (List.mem_cons_of_mem _ hw)
  active := by
    rw [List.map_cons, hs]
    exact h.active

/-- Something is forgotten that is not under way. -/
theorem forget (h : Listed m ts) (hkeep : ∀ t ∈ ts, w.get? t.spot = m.get? t.spot)
    (hless : ∀ y e, w.get? y = some e → m.get? y = some e) : Listed w ts where
  entry t ht := (h.entry t ht).congr (hkeep t ht) rfl rfl
  active y met hy := h.active y met (hless y _ hy)

/-- The latest application returns, and its entry is active no more. -/
theorem finish (h : Listed m (t :: ts)) (hnew : t.spot ∉ ts.map Task.spot)
    (hown : ∀ met, w.get? t.spot ≠ some (.active met))
    (hrest : ∀ y, y ≠ t.spot → w.get? y = m.get? y) : Listed w ts where
  entry := by
    intro u hu
    have hne : u.spot ≠ t.spot := fun he => hnew (he ▸ List.mem_map_of_mem hu)
    exact (h.entry u (List.mem_cons_of_mem _ hu)).congr (hrest _ hne) rfl rfl
  active := by
    intro y met hy
    have hne : y ≠ t.spot := by
      rintro rfl
      exact hown met hy
    rcases List.mem_cons.1 (h.active y met (hrest y hne ▸ hy)) with he | hmem
    · exact absurd he hne
    · exact hmem

end Listed

/-! ### The log, where results are kept -/

/-- **The log tells what is in the table**: every key that has an entry is logged exactly once, and
no other is. -/
structure Memo.Tidy (m : Memo φ) : Prop where
  nodup : m.log.toList.Nodup
  mem_iff : ∀ x, x ∈ m.log.toList ↔ (m.get? x).isSome = true

@[simp] theorem Memo.log_empty : (Memo.empty : Memo φ).log = #[] := rfl

namespace Memo.Tidy

variable {m : Memo φ} {x : Spot}

theorem empty : (Memo.empty : Memo φ).Tidy where
  nodup := List.Pairwise.nil
  mem_iff x := by simp

theorem begin (h : m.Tidy) (hx : m.get? x = none) : (m.begin x).Tidy where
  nodup := by
    rw [log_begin, Array.toList_push, List.nodup_append]
    refine ⟨h.nodup, by simp, ?_⟩
    rintro y hy z hz rfl
    rw [List.mem_singleton.1 hz, h.mem_iff, hx] at hy
    cases hy
  mem_iff y := by
    rw [log_begin, Array.toList_push, List.mem_append, List.mem_singleton, get?_begin, h.mem_iff]
    by_cases he : y = x <;> simp [he]

/-- An entry is replaced. -/
theorem set (h : m.Tidy) (hx : m.get? x ≠ none) (e : Entry φ) : (m.set x e).Tidy where
  nodup := h.nodup
  mem_iff y := by
    rw [log_set, h.mem_iff, get?_set]
    by_cases he : y = x
    · subst he
      simp [Option.isSome_iff_ne_none, hx]
    · simp [he]

theorem forgetAfter (h : m.Tidy) (mark : Nat) : (m.forgetAfter mark).Tidy where
  nodup := by
    rw [toList_forgetAfter]
    exact h.nodup.sublist (List.take_sublist _ _)
  mem_iff y := by
    have hsplit : y ∈ m.log.toList ↔
        y ∈ m.log.toList.take (mark + 1) ∨ y ∈ m.log.toList.drop (mark + 1) := by
      rw [← List.mem_append, List.take_append_drop]
    have hapart : y ∈ m.log.toList.take (mark + 1) → y ∉ m.log.toList.drop (mark + 1) := by
      have hnodup := h.nodup
      rw [← List.take_append_drop (mark + 1) m.log.toList, List.nodup_append] at hnodup
      exact fun ht hd => hnodup.2.2 y ht y hd rfl
    rw [toList_forgetAfter, get?_forgetAfter]
    split
    next hd => simpa using fun ht => hapart ht hd
    next hd => rw [← h.mem_iff, hsplit]; simp [hd]

end Memo.Tidy

/-! ### Order -/

namespace Sheet

variable [Account φ] {keep : Bool} {s : Sheet φ} {a : Act φ} {acts : List (Act φ)}

/-- **The order of a sheet.** -/
structure InOrder (keep : Bool) (s : Sheet φ) : Prop where
  logged : Logged s.memo.log.toList s.tasks
  listed : Listed s.memo s.tasks
  tidy : keep = true → s.memo.Tidy

theorem InOrder.empty : InOrder keep ({} : Sheet φ) where
  logged := .empty _
  listed := ⟨by simp, fun x met h => by simp at h⟩
  tidy _ := .empty

/-- What growth forgets changes no entry of an application under way. -/
theorem InOrder.get?_forgetAfter (h : s.InOrder keep) {t : Task} (ht : t ∈ s.tasks) {mark : Nat}
    (hm : t.mark ≤ mark) : (s.memo.forgetAfter mark).get? t.spot = s.memo.get? t.spot := by
  rw [Memo.get?_forgetAfter, if_neg (h.logged.spared ht hm)]

omit [Account φ] in
/-- A result is kept or forgotten, and all else stays. -/
theorem get?_returned (m : Memo φ) (keep : Bool) (e : Entry φ) (y x : Spot) :
    (if keep then m.set y e else m.erase y).get? x =
      if x = y then if keep then some e else none else m.get? x := by
  cases keep <;> simp

/-- The latest application returns. -/
theorem InOrder.finish {m : Memo φ} {t : Task} {ts : List Task} (h : InOrder keep ⟨m, t :: ts⟩)
    (value : Option Value) (stop : Nat) (account : φ) :
    InOrder keep
      ⟨if keep then m.set t.spot (.done value stop account) else m.erase t.spot, ts⟩ where
  logged := by cases keep <;> exact h.logged.tail
  listed := by
    have hnew := (List.nodup_cons.1 h.logged.distinct).1
    refine h.listed.finish hnew (fun met hg => ?_) fun y hy => ?_
    · rw [get?_returned, if_pos rfl] at hg
      split at hg <;> cases hg
    · rw [get?_returned, if_neg hy]
  tidy := by
    rintro rfl
    exact (h.tidy rfl).set (h.listed.entry t (List.mem_cons_self ..)).ne_none _

/-- **Every act that fits keeps a sheet in order.** -/
theorem InOrder.after (h : s.InOrder keep) (ha : s.Fits a) : (s.after keep a).InOrder keep := by
  obtain ⟨hlogged, hlist, htidy⟩ := h
  cases ha with
  | begin hx =>
    have hlogged := hlogged.begin (hlist.not_mem hx)
    exact ⟨by rwa [← Array.toList_push] at hlogged, hlist.begin hx, fun hk => (htidy hk).begin hx⟩
  | meet hx =>
    exact ⟨hlogged, hlist.meet hx, fun hk => (htidy hk).set (by rw [hx]; simp) _⟩
  | sow =>
    have hnew := (List.nodup_cons.1 hlogged.distinct).1
    have hhas := (hlist.entry _ (List.mem_cons_self ..)).ne_none
    exact ⟨hlogged.head rfl rfl, hlist.sow hnew, fun hk => (htidy hk).set hhas _⟩
  | @clear m ts x mark seed phase hphase =>
    have hspared : ∀ t ∈ (⟨x, mark, some seed, phase⟩ : Task) :: ts,
        (m.forgetAfter mark).get? t.spot = m.get? t.spot := fun t ht =>
      InOrder.get?_forgetAfter ⟨hlogged, hlist, htidy⟩ ht (hlogged.mark_le ht)
    have hless : ∀ y e, (m.forgetAfter mark).get? y = some e → m.get? y = some e := by
      intro y e hy
      rw [Memo.get?_forgetAfter] at hy
      split at hy
      · cases hy
      · exact hy
    refine ⟨?_, (hlist.forget hspared hless).head rfl rfl, fun hk => (htidy hk).forgetAfter mark⟩
    show Logged (m.forgetAfter mark).log.toList _
    rw [Memo.toList_forgetAfter]
    exact hlogged.clear.head rfl rfl
  | again => exact ⟨hlogged.head rfl rfl, hlist.head rfl rfl, htidy⟩
  | settle => exact InOrder.finish ⟨hlogged, hlist, htidy⟩ _ _ _
  | ripen => exact InOrder.finish ⟨hlogged, hlist, htidy⟩ _ _ _

/-- **A sheet stays in order** as long as the acts fit. -/
theorem InOrder.run (h : s.InOrder keep) (ha : s.Lawful keep acts) :
    (s.run keep acts).InOrder keep := by
  induction acts generalizing s with
  | nil => exact h
  | cons a acts ih => exact ih (h.after ha.1) ha.2

/-! ### Evaluations of one body -/

/-- **No evaluation is due.** The application has an entry in the table, and it is not about to run
again. -/
structure Rests (x : Spot) (s : Sheet φ) : Prop where
  known : s.memo.get? x ≠ none
  notCleared : ∀ t ∈ s.tasks, t.spot = x → t.phase ≠ .cleared

omit [Account φ] in
/-- Where no evaluation is due, none fits. -/
theorem Rests.evaluated?_ne {x : Spot} (h : s.Rests x) (ha : s.Fits a) :
    a.evaluated? ≠ some x := by
  rintro he
  cases ha with
  | begin hx =>
    cases he
    exact h.known hx
  | again =>
    cases he
    exact h.notCleared _ (List.mem_cons_self ..) rfl rfl
  | _ => cases he

/-- When an evaluation has begun, none is due. -/
theorem rests_of_evaluated? {x : Spot} (h : s.InOrder keep) (ha : s.Fits a)
    (he : a.evaluated? = some x) : (s.after keep a).Rests x := by
  cases ha with
  | @begin m ts y hx =>
    cases he
    refine ⟨by simp [Sheet.after], fun t ht hs => ?_⟩
    rcases List.mem_cons.1 ht with rfl | ht
    · simp
    · exact absurd (hs ▸ List.mem_map_of_mem ht) (h.listed.not_mem hx)
  | @again m ts y mark seed =>
    cases he
    have hnew : x ∉ ts.map Task.spot := (List.nodup_cons.1 h.logged.distinct).1
    refine ⟨(h.listed.entry _ (List.mem_cons_self ..)).ne_none, fun t ht hs => ?_⟩
    rcases List.mem_cons.1 ht with rfl | ht
    · simp
    · exact absurd (hs ▸ List.mem_map_of_mem ht) hnew
  | _ => cases he

/-- Only what is forgotten or about to run again is due, and results are kept: so nothing becomes
due but by growth that forgets. -/
theorem Rests.after {x : Spot} (h : s.Rests x) (ho : s.InOrder true) (ha : s.Fits a)
    (hc : ∀ y, a ≠ .clear y) : (s.after true a).Rests x := by
  have hset {m : Memo φ} (hm : m.get? x ≠ none) (y : Spot) (e : Entry φ) :
      (m.set y e).get? x ≠ none := by
    rw [Memo.get?_set]
    split
    · simp
    · exact hm
  cases ha with
  | @begin m ts y hy =>
    have hne : y ≠ x := by
      rintro rfl
      exact h.known hy
    refine ⟨by simpa [Sheet.after, Ne.symm hne] using h.known, fun t ht hs => ?_⟩
    rcases List.mem_cons.1 ht with rfl | ht
    · exact absurd hs hne
    · exact h.notCleared t ht hs
  | meet => exact ⟨hset h.known _ _, h.notCleared⟩
  | sow =>
    refine ⟨hset h.known _ _, fun t ht hs => ?_⟩
    rcases List.mem_cons.1 ht with rfl | ht
    · simp
    · exact h.notCleared t (List.mem_cons_of_mem _ ht) hs
  | clear => exact absurd rfl (hc _)
  | again =>
    refine ⟨h.known, fun t ht hs => ?_⟩
    rcases List.mem_cons.1 ht with rfl | ht
    · simp
    · exact h.notCleared t (List.mem_cons_of_mem _ ht) hs
  | settle =>
    exact ⟨hset h.known _ _, fun t ht => h.notCleared t (List.mem_cons_of_mem _ ht)⟩
  | ripen =>
    exact ⟨hset h.known _ _, fun t ht => h.notCleared t (List.mem_cons_of_mem _ ht)⟩

/-- **Where nothing is forgotten, no body is evaluated twice**, if results are kept. -/
theorem InOrder.nodup_evaluated (h : s.InOrder true) (ha : s.Lawful true acts)
    (hc : ∀ y, .clear y ∉ acts) :
    (acts.filterMap Act.evaluated?).Nodup ∧
      ∀ x, s.Rests x → x ∉ acts.filterMap Act.evaluated? := by
  induction acts generalizing s with
  | nil => simp
  | cons a acts ih =>
    obtain ⟨hnodup, hrests⟩ := ih (h.after ha.1) ha.2 fun y hy => hc y (List.mem_cons_of_mem _ hy)
    have hstep : ∀ x, s.Rests x → x ∉ acts.filterMap Act.evaluated? := fun x hx =>
      hrests x (hx.after h ha.1 fun y he => hc y (he ▸ List.mem_cons_self ..))
    cases he : a.evaluated? with
    | none =>
      rw [List.filterMap_cons_none he]
      exact ⟨hnodup, hstep⟩
    | some y =>
      have hy := hrests y (rests_of_evaluated? h ha.1 he)
      rw [List.filterMap_cons_some he]
      refine ⟨List.nodup_cons.2 ⟨hy, hnodup⟩, fun x hx hmem => ?_⟩
      rcases List.mem_cons.1 hmem with rfl | hmem
      · exact hx.evaluated?_ne ha.1 he
      · exact hstep x hx hmem

/-! ### Growth is of applications that were met -/

omit [Account φ] in
/-- A table tells that an application was met while it is active. -/
theorem active_of_isLeftRecursive {m : Memo φ} {x : Spot} (h : m.isLeftRecursive x = true) :
    m.get? x = some (.active true) := by
  unfold Memo.isLeftRecursive at h
  split at h
  next met hx => rw [hx, h]
  next => cases h

/-- **What went before**: whatever was met while it is active was met in the history, and whatever
grows from a seed has got it there. -/
structure Witnessed (history : List (Act φ)) (s : Sheet φ) : Prop where
  met : ∀ x, s.memo.get? x = some (.active true) → .meet x ∈ history
  grown : ∀ t ∈ s.tasks, ∀ seed stop, t.seed = some (seed, stop) →
    .meet t.spot ∈ history ∧ .sow t.spot seed stop ∈ history

namespace Witnessed

variable {history more : List (Act φ)}

omit [Account φ] in
theorem empty : Witnessed [] ({} : Sheet φ) := ⟨fun x h => by simp at h, by simp⟩

omit [Account φ] in
/-- More may have happened since. -/
theorem append (h : s.Witnessed history) : s.Witnessed (history ++ more) where
  met x hx := List.mem_append_left _ (h.met x hx)
  grown t ht seed stop hs :=
    ⟨List.mem_append_left _ (h.grown t ht seed stop hs).1,
      List.mem_append_left _ (h.grown t ht seed stop hs).2⟩

omit [Account φ] in
/-- Nothing else becomes active and met, and no other seeds are there. -/
theorem less (h : s.Witnessed history) {u : Sheet φ}
    (hmemo : ∀ x, u.memo.get? x = some (.active true) → s.memo.get? x = some (.active true))
    (htasks : ∀ t ∈ u.tasks, t.seed = none ∨ ∃ w ∈ s.tasks, w.spot = t.spot ∧ w.seed = t.seed) :
    u.Witnessed history where
  met x hx := h.met x (hmemo x hx)
  grown t ht seed stop hs := by
    obtain hn | ⟨w, hw, hspot, hseed⟩ := htasks t ht
    · rw [hn] at hs
      cases hs
    · exact hspot ▸ h.grown w hw seed stop (hseed.trans hs)

theorem after (h : s.Witnessed history) (ha : s.Fits a) :
    (s.after keep a).Witnessed (history ++ [a]) := by
  have hkept : s.Witnessed (history ++ [a]) := h.append
  have hset {m : Memo φ} {x y : Spot} {e : Entry φ} (he : e ≠ .active true)
      (hx : (m.set y e).get? x = some (.active true)) : m.get? x = some (.active true) := by
    rw [Memo.get?_set] at hx
    split at hx
    · exact absurd (Option.some.inj hx) he
    · exact hx
  have hreturned {m : Memo φ} {x y : Spot} {v : Option Value} {stop : Nat} {account : φ}
      (hx : (if keep then m.set y (.done v stop account) else m.erase y).get? x =
        some (.active true)) : m.get? x = some (.active true) := by
    rw [get?_returned] at hx
    split at hx
    · split at hx <;> cases hx
    · exact hx
  cases ha with
  | begin =>
    refine hkept.less (fun x hx => ?_) (List.forall_mem_cons.2 ⟨.inl rfl, fun t ht => ?_⟩)
    · exact hset (by simp) hx
    · exact .inr ⟨t, ht, rfl, rfl⟩
  | @meet m ts y met hy =>
    refine ⟨fun x hx => ?_, hkept.grown⟩
    simp only [Sheet.after, Memo.get?_set] at hx
    split at hx
    next he => simp [he]
    next => exact hkept.met x hx
  | @sow m ts y mark old seed stop hy =>
    refine ⟨fun x hx => hkept.met x (hset (by simp) hx), List.forall_mem_cons.2 ⟨?_, ?_⟩⟩
    · rintro v stop' ⟨⟩
      refine ⟨?_, by simp⟩
      -- either it was met just now, or it has grown before
      cases hold : old with
      | none => exact hkept.met y (active_of_isLeftRecursive (hy hold))
      | some p => exact (hkept.grown _ (List.mem_cons_self ..) p.1 p.2 hold).1
    · exact fun t ht => hkept.grown t (List.mem_cons_of_mem _ ht)
  | clear =>
    refine hkept.less (fun x hx => ?_) (List.forall_mem_cons.2 ⟨?_, fun t ht => ?_⟩)
    · simp only [Sheet.after, Memo.get?_forgetAfter] at hx
      split at hx
      · cases hx
      · exact hx
    · exact .inr ⟨_, List.mem_cons_self .., rfl, rfl⟩
    · exact .inr ⟨t, List.mem_cons_of_mem _ ht, rfl, rfl⟩
  | again =>
    refine hkept.less (fun x hx => hx) (List.forall_mem_cons.2 ⟨?_, fun t ht => ?_⟩)
    · exact .inr ⟨_, List.mem_cons_self .., rfl, rfl⟩
    · exact .inr ⟨t, List.mem_cons_of_mem _ ht, rfl, rfl⟩
  | settle =>
    exact hkept.less (fun x hx => hreturned hx) fun t ht =>
      .inr ⟨t, List.mem_cons_of_mem _ ht, rfl, rfl⟩
  | ripen =>
    exact hkept.less (fun x hx => hreturned hx) fun t ht =>
      .inr ⟨t, List.mem_cons_of_mem _ ht, rfl, rfl⟩

theorem run (h : s.Witnessed history) (ha : s.Lawful keep acts) :
    (s.run keep acts).Witnessed (history ++ acts) := by
  induction acts generalizing s history with
  | nil => simpa using h
  | cons a acts ih =>
    have := ih (h.after ha.1) ha.2
    rwa [List.append_assoc] at this

omit [Account φ] in
/-- What is forgotten is forgotten for an application that was met before and grows. -/
theorem grows (h : s.Witnessed history) {y : Spot} (ha : s.Fits (.clear y)) :
    .meet y ∈ history ∧ ∃ seed stop, .sow y seed stop ∈ history := by
  cases ha with
  | @clear m ts x mark seed =>
    obtain ⟨hmeet, hsow⟩ := h.grown _ (List.mem_cons_self ..) seed.1 seed.2 rfl
    exact ⟨hmeet, _, _, hsow⟩

end Witnessed

end Sheet

/-! ### All that is done in a frame -/

/-- **The discipline of a table**, in all that is done to it from when it is empty. -/
structure Disciplined [Account φ] (keep : Bool) (acts : List (Act φ)) : Prop where
  /-- At every moment, the table is in order: every application under way has its entry, no two of
  them are the same, no other entry is active, and where results are kept, the log tells exactly
  what is in the table. -/
  inOrder : ∀ before, before <+: acts → (Sheet.run keep {} before).InOrder keep
  /-- Growth that forgets changes no entry of an application under way. -/
  spared : ∀ before y, before ++ [.clear y] <+: acts → ∀ t ∈ (Sheet.run keep {} before).tasks,
    (Sheet.run keep {} (before ++ [.clear y])).memo.get? t.spot =
      (Sheet.run keep {} before).memo.get? t.spot
  /-- An application that has returned has left its result, or nothing. -/
  returned : ∀ before x value stop account, before ++ [.finish x value stop account] <+: acts →
    (Sheet.run keep {} (before ++ [.finish x value stop account])).memo.get? x =
      if keep then some (.done value stop account) else none
  /-- If results are kept, then between any two evaluations of one body a round of growth starts or
  ends that makes something forgotten, and what grows was met while it was under way. -/
  between : keep = true → ∀ before a amid b rest x, acts = before ++ a :: (amid ++ b :: rest) →
    a.evaluated? = some x → b.evaluated? = some x → ∃ y seed stop,
      .meet y ∈ before ++ a :: amid ∧ .sow y seed stop ∈ before ++ a :: amid ∧ .clear y ∈ amid
  /-- Without left recursion, every body is then evaluated at most once. -/
  once : keep = true → (∀ x, .meet x ∉ acts) → (acts.filterMap Act.evaluated?).Nodup

variable [Account φ] {keep : Bool} {acts : List (Act φ)}

/-- What is forgotten is forgotten for an application that was met before and grows. -/
theorem Sheet.Lawful.grows {before rest : List (Act φ)} {y : Spot}
    (h : Sheet.Lawful keep {} (before ++ .clear y :: rest)) :
    .meet y ∈ before ∧ ∃ seed stop, .sow y seed stop ∈ before := by
  obtain ⟨hbefore, hfits⟩ := Sheet.lawful_append.1 h
  simpa using (Sheet.Witnessed.empty.run hbefore).grows hfits.1

/-- Between two evaluations of one body, something is forgotten. -/
theorem Sheet.Lawful.clear_mem {s : Sheet φ} (hs : s.InOrder true) {a b : Act φ}
    {amid rest : List (Act φ)} (h : s.Lawful true (a :: (amid ++ b :: rest))) {x : Spot}
    (ha : a.evaluated? = some x) (hb : b.evaluated? = some x) : ∃ y, .clear y ∈ amid := by
  have hpart : s.Lawful true (a :: (amid ++ [b])) := by
    have h' : s.Lawful true ((a :: (amid ++ [b])) ++ rest) := by simpa using h
    exact (Sheet.lawful_append.1 h').1
  refine Classical.byContradiction fun hnone => ?_
  have hnodup := (hs.nodup_evaluated hpart fun y hy => ?_).1
  · simp [ha, hb] at hnodup
  · -- the two evaluations themselves forget nothing
    rcases List.mem_cons.1 hy with rfl | hy
    · cases ha
    rcases List.mem_append.1 hy with hy | hy
    · exact hnone ⟨y, hy⟩
    · cases List.mem_singleton.1 hy
      cases hb

/-- **Acts that fit are disciplined.** -/
theorem Sheet.Lawful.disciplined (h : Sheet.Lawful keep {} acts) : Disciplined keep acts where
  inOrder before hb := by
    obtain ⟨rest, rfl⟩ := hb
    exact Sheet.InOrder.empty.run (Sheet.lawful_append.1 h).1
  spared before y hb t ht := by
    obtain ⟨rest, rfl⟩ := hb
    rw [List.append_assoc] at h
    obtain ⟨hbefore, hfits⟩ := Sheet.lawful_append.1 h
    have horder := Sheet.InOrder.empty.run hbefore
    rw [Sheet.run_append]
    generalize Sheet.run keep {} before = s at hfits horder ht ⊢
    cases hfits.1 with
    | clear => exact horder.get?_forgetAfter ht (horder.logged.mark_le ht)
  returned before x value stop account hb := by
    obtain ⟨rest, rfl⟩ := hb
    rw [List.append_assoc] at h
    have hfits := (Sheet.lawful_append.1 h).2.1
    rw [Sheet.run_append]
    generalize Sheet.run keep {} before = s at hfits ⊢
    cases hfits <;> cases keep <;> simp [Sheet.run, Sheet.after]
  between hk before a amid b rest x he ha hb := by
    subst hk he
    obtain ⟨hbefore, hpart⟩ := Sheet.lawful_append.1 h
    obtain ⟨y, hy⟩ := hpart.clear_mem (Sheet.InOrder.empty.run hbefore) ha hb
    obtain ⟨first, second, rfl⟩ := List.append_of_mem hy
    have h' : Sheet.Lawful true {}
        ((before ++ a :: first) ++ .clear y :: (second ++ b :: rest)) := by simpa using h
    obtain ⟨hmeet, seed, stop, hsow⟩ := h'.grows
    have hearly {c : Act φ} (hc : c ∈ before ++ a :: first) :
        c ∈ before ++ a :: (first ++ .clear y :: second) := by
      have : c ∈ (before ++ a :: first) ++ .clear y :: second := List.mem_append_left _ hc
      simpa using this
    exact ⟨y, seed, stop, hearly hmeet, hearly hsow, hy⟩
  once hk hmeet := by
    subst hk
    refine (Sheet.InOrder.empty.nodup_evaluated h fun y hy => ?_).1
    obtain ⟨before, rest, rfl⟩ := List.append_of_mem hy
    exact hmeet y (List.mem_append_left _ h.grows.1)

end Packrat
