import Packrat.Proofs.Application
import Packrat.Proofs.Likeness
import Packrat.Proofs.Tables

/-!
# Applications through two tables

Two matches may file one and the same application under different keys, or give different accounts
of it. If their tables treat the two as one, then applying a rule through either table comes to the
same: both find it running, both find it finished, or both run its body, and then both grow a seed
or neither does.

* `Entry.Like`: entries that say the same, with accounts that are alike.
* `Likeness.Pairs`: two applications that the tables of two matches treat alike.
* `Likeness.Pairs.memoized`: they are applied alike, if their bodies run alike.
-/

namespace Packrat

variable {φ ψ : Type}

/-- Entries that say the same, with accounts that are alike. -/
inductive Entry.Like (accounts : φ → ψ → Prop) : Entry φ → Entry ψ → Prop
  | active (met : Bool) : Like accounts (.active met) (.active met)
  | done (v : Option Value) (stop : Nat) {a : φ} {a' : ψ} (h : accounts a a') :
    Like accounts (.done v stop a) (.done v stop a')

variable [Account φ] [Account ψ]

/-- **Two applications that the tables of two matches treat alike**: whatever is done to the entry
of one in like tables and to the entry of the other leaves like tables. -/
structure Likeness.Pairs (L : Likeness φ ψ) (f : Frame) (one two : Call) : Prop where
  rule {start : Nat} {failed : Bool} {a : φ} {a' : ψ} : L.accounts a a' →
    L.accounts (Account.ofRule f one.rule start failed a)
      (Account.ofRule f two.rule start failed a')
  mark {m : Memo φ} {w : Memo ψ} : L.tables f m w → m.mark = w.mark
  get {m : Memo φ} {w : Memo ψ} (p : Nat) : L.tables f m w →
    Option.Rel (Entry.Like L.accounts) (m.get? (p, one)) (w.get? (p, two))
  set {m : Memo φ} {w : Memo ψ} {a : Entry φ} {b : Entry ψ} (p : Nat) : L.tables f m w →
    a.Like L.accounts b → L.tables f (m.set (p, one) a) (w.set (p, two) b)
  erase {m : Memo φ} {w : Memo ψ} (p : Nat) : L.tables f m w →
    L.tables f (m.erase (p, one)) (w.erase (p, two))
  begin {m : Memo φ} {w : Memo ψ} (p : Nat) : L.tables f m w →
    L.tables f (m.begin (p, one)) (w.begin (p, two))
  forgetAfter {m : Memo φ} {w : Memo ψ} (mark : Nat) : L.tables f m w →
    L.tables f (m.forgetAfter mark) (w.forgetAfter mark)

namespace Likeness.Pairs

variable {L : Likeness φ ψ} {f : Frame} {one two : Call} {keep : Bool} {body : Attempt φ}
  {other : Attempt ψ} {s s' : State φ} {t t' : State ψ}

/-- Either both applications were met again or neither was. -/
theorem isLeftRecursive (P : L.Pairs f one two) {m : Memo φ} {w : Memo ψ} (p : Nat)
    (h : L.tables f m w) : m.isLeftRecursive (p, one) = w.isLeftRecursive (p, two) := by
  unfold Memo.isLeftRecursive
  generalize m.get? (p, one) = a, w.get? (p, two) = b, P.get p h = hab
  cases hab with
  | none => rfl
  | some hab => cases hab <;> rfl

/-- Applications end alike. -/
theorem left (P : L.Pairs f one two) (hl : L.Like f s t) (hl' : L.Like f s' t')
    (v : Option Value) : L.Like f (s.left keep f one v s') (t.left keep f two v t') := by
  have hpos : s.pos = t.pos := hl.pos
  have hpos' : s'.pos = t'.pos := hl'.pos
  have hrule : L.accounts (Account.ofRule f one.rule t.pos v.isNone s'.account)
      (Account.ofRule f two.rule t.pos v.isNone t'.account) := P.rule hl'.accounts
  unfold State.left
  rw [hpos, hpos']
  refine ⟨rfl, ?_, L.append hl.accounts hrule⟩
  cases keep with
  | true => exact P.set _ hl'.tables (.done _ _ hrule)
  | false => exact P.erase _ hl'.tables

section Bodies

variable (hb : ∀ s t, L.Like f s t → Follows L.exempt (L.Like f) (body s) (other t))

include hb

/-- Seeds grow alike. -/
theorem grow (P : L.Pairs f one two) (p mark fuel : Nat) (seed : Value) (stop : Nat) (s : State φ)
    (t : State ψ) (hl : L.Like f s t) :
    Follows L.exempt (L.Like f) (Packrat.grow body (p, one) mark fuel seed stop s)
      (Packrat.grow other (p, two) mark fuel seed stop t) := by
  induction fuel generalizing seed stop s t with
  | zero => exact .inr rfl
  | succ fuel ih =>
    rw [grow_succ, grow_succ]
    have hseeded : L.Like f (s.seeded (p, one) mark seed stop)
        (t.seeded (p, two) mark seed stop) :=
      ⟨rfl, P.forgetAfter mark (P.set p hl.tables (.done _ _ L.empty)), hl.accounts⟩
    refine (hb _ _ hseeded).bind fun v s' t' hl' => ?_
    have hgrown : L.Like f (s'.grown stop mark) (t'.grown stop mark) :=
      ⟨rfl, P.forgetAfter mark hl'.tables, hl'.accounts⟩
    cases v with
    | none => exact ⟨_, rfl, hgrown⟩
    | some v =>
      have hpos : s'.pos = t'.pos := hl'.pos
      simp only [hpos]
      split
      · exact ih v t'.pos s' t' hl'
      · exact ⟨_, rfl, hgrown⟩

/-- Applications ripen alike. -/
theorem ripened (P : L.Pairs f one two) (p mark : Nat) (hl : L.Like f s t) :
    Follows L.exempt (L.Like f) (Packrat.ripened body f (p, one) mark s)
      (Packrat.ripened other f (p, two) mark t) := by
  unfold Packrat.ripened
  refine (hb s t hl).bind fun v s' t' hl' => ?_
  cases v with
  | none => exact ⟨_, rfl, hl'⟩
  | some seed =>
    have hpos : s'.pos = t'.pos := hl'.pos
    simp only [hpos, P.isLeftRecursive p hl'.tables]
    split
    · have hgrow := P.grow hb p mark (f.input.size - t'.pos + 1) seed t'.pos s' t' hl'
      exact hgrow.bind fun _ _ _ hl'' => ⟨_, rfl, hl''⟩
    · exact ⟨_, rfl, hl'⟩

/-- **Applications that tables treat alike are applied alike**, with bodies that run alike. -/
theorem memoized (P : L.Pairs f one two) (hl : L.Like f s t) :
    Follows L.exempt (L.Like f) (Packrat.memoized keep f one body s)
      (Packrat.memoized keep f two other t) := by
  have hpos : s.pos = t.pos := hl.pos
  have hget : Option.Rel (Entry.Like L.accounts) (s.memo.get? (s.pos, one))
      (t.memo.get? (t.pos, two)) := by
    rw [hpos]
    exact P.get t.pos hl.tables
  cases hs : s.memo.get? (s.pos, one) with
  | none =>
    have ht : t.memo.get? (t.pos, two) = none := by
      rw [hs] at hget
      generalize t.memo.get? (t.pos, two) = b at hget
      cases hget
      rfl
    have hentered : L.Like f (s.entered one) (t.entered two) := by
      refine ⟨hpos, ?_, L.empty⟩
      simp only [State.entered, hpos]
      exact P.begin t.pos hl.tables
    rw [memoized_of_none hs, memoized_of_none ht, P.mark hl.tables, hpos]
    exact (P.ripened hb t.pos t.memo.mark hentered).bind fun v _ _ hl' => ⟨_, rfl, P.left hl hl' v⟩
  | some entry =>
    rw [hs] at hget
    obtain ⟨entry', ht, hentry⟩ : ∃ entry', t.memo.get? (t.pos, two) = some entry' ∧
        entry.Like L.accounts entry' := by
      generalize t.memo.get? (t.pos, two) = b at hget
      cases hget with
      | some h => exact ⟨_, rfl, h⟩
    cases hentry with
    | active met =>
      rw [memoized_of_active hs, memoized_of_active ht]
      refine ⟨_, rfl, hpos, ?_, hl.accounts⟩
      simp only [hpos]
      exact P.set t.pos hl.tables (.active true)
    | done v stop ha =>
      rw [memoized_of_done hs, memoized_of_done ht]
      exact ⟨_, rfl, by simp only [State.moveTo, hpos], hl.tables, L.append hl.accounts ha⟩

end Bodies

end Likeness.Pairs

end Packrat
