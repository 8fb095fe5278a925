import Packrat.Proofs.Application
import Packrat.Proofs.Runs
import Packrat.Proofs.Sheets

/-!
# What a match does to its tables

A journal lists what a match does to the table of its frame, and what it does to the table of every
frame that it enters, up to where the match ends or breaks off. It is drawn up along the match
itself: whatever comes next is decided by the results and the states that the match has at that
point, and every line has the table as it is in such a state. So a journal is no second account of
matching but the match, seen from its tables. An error carries no state with it, so it is only the
journal that tells what a table was like when a match broke off: wherever one can, there is a line.

The acts of a journal fit the table that the match starts from, those before a line lead to the
table of that line, and all together lead to the table that the match leaves behind. So all that is
true of acts that fit is true of every frame of every run.

* `Line`, `Visit`, `Journal`: what is told of the table of a frame.
* `Expr.journal`, `memoizedJournal`, `Engine.journal`: the journals.
* `Sheet.Told`: the lines of a journal are true of a sheet.
* `Journal.Keeps`: a journal leads from one table to another, with lines that are true.
* `Expr.journal_keeps`, `recorder_keeps`: the journals of expressions and of applications do.
* `Engine.table_discipline`: the discipline of the tables of a run.
-/

namespace Packrat

variable {φ : Type}

/-- **A line of a journal**: the table of a frame, and what is done to it, if anything is. -/
structure Line (φ : Type) where
  memo : Memo φ
  act? : Option (Act φ) := none

/-- What is done to a table, line by line. -/
def Line.acts (lines : List (Line φ)) : List (Act φ) := lines.filterMap Line.act?

/-- **What is told of a frame that was entered**, and the table that was there when the match came
out of it again. There is none if the match broke off inside. -/
structure Visit (φ : Type) where
  lines : List (Line φ)
  left? : Option (Memo φ)

/-- **A journal**: what is told of a frame, and of every frame entered from there. -/
structure Journal (φ : Type) where
  lines : List (Line φ) := []
  entered : List (Visit φ) := []

namespace Journal

/-- What is done to the table of the frame. -/
def acts (j : Journal φ) : List (Act φ) := Line.acts j.lines

/-- What is told of each frame, first of all of the frame itself. -/
def frames (j : Journal φ) : List (List (Line φ)) := j.lines :: j.entered.map Visit.lines

instance : Append (Journal φ) := ⟨fun j k => ⟨j.lines ++ k.lines, j.entered ++ k.entered⟩⟩

/-- The table as it is here. Nothing is done to it, but the match may break off. -/
def seen (m : Memo φ) : Journal φ := { lines := [{ memo := m }] }

/-- What is done to the table. -/
def done (m : Memo φ) (a : Act φ) : Journal φ := { lines := [{ memo := m, act? := some a }] }

/-- The journal of a frame as part of the journal of the frame around it. -/
def inside (j : Journal φ) (left? : Option (Memo φ)) : Journal φ :=
  { entered := { lines := j.lines, left? } :: j.entered }

/-- What follows a computation, unless that breaks off. -/
def following {ε α : Type} (m : Except ε α) (k : α → Journal φ) : Journal φ :=
  match m with
  | .ok a => k a
  | .error _ => {}

end Journal

open Journal (following)

variable [Account φ]

/-! ### Applications through the table -/

/-- The journal of growth, where `body` runs the body and `journal` is its journal. -/
def growJournal (body : Attempt φ) (journal : State φ → Journal φ) (spot : Spot) (mark : Nat) :
    (fuel : Nat) → (seed : Value) → (stop : Nat) → State φ → Journal φ
  | 0, _, _, st => .seen st.memo
  | fuel + 1, seed, stop, st =>
    let start := st.seeded spot mark seed stop
    .done st.memo (.sow spot seed stop) ++
      (.done (st.memo.set spot (.done (some seed) stop Account.empty)) (.clear spot) ++
        (.done start.memo (.again spot) ++ (journal start ++
          following (body start) fun (value, st) =>
            match value with
            | some v =>
              if stop < st.pos then growJournal body journal spot mark fuel v st.pos st
              else .done st.memo (.clear spot)
            | none => .done st.memo (.clear spot))))

/-- The journal of the body of an application, and of growth if the application was met. -/
def ripenedJournal (body : Attempt φ) (journal : State φ → Journal φ) (frame : Frame) (spot : Spot)
    (mark : Nat) (st : State φ) : Journal φ :=
  journal st ++ following (body st) fun (value, inside) =>
    match value with
    | some seed =>
      if inside.memo.isLeftRecursive spot then
        growJournal body journal spot mark (frame.input.size - inside.pos + 1) seed inside.pos
          inside
      else {}
    | none => {}

/-- **The journal of an application through the table.** An application that is found there does
nothing to it. -/
def memoizedJournal (frame : Frame) (call : Call) (body : Attempt φ)
    (journal : State φ → Journal φ) (st : State φ) : Journal φ :=
  let spot : Spot := (st.pos, call)
  match st.memo.get? spot with
  | some (.active _) => .done st.memo (.meet spot)
  | some (.done ..) => {}
  | none =>
    .done st.memo (.begin spot) ++
      (ripenedJournal body journal frame spot st.memo.mark (st.entered call) ++
        following (ripened body frame spot st.memo.mark (st.entered call)) fun (value, inside) =>
          .done inside.memo (.finish spot value inside.pos
            (Account.ofRule frame call.rule st.pos value.isNone inside.account)))

/-! ### Expressions -/

/-- How the journal of the application of a rule is drawn up. -/
abbrev Recorder (φ : Type) :=
  (frame : Frame) → (dispatch owner : Grammar) → Rule → List Value → State φ → Journal φ

/-- The journal of white space as the grammar defines it. -/
def spacesJournal (recorder : Recorder φ) (frame : Frame) (dispatch : Grammar) (st : State φ) :
    Journal φ :=
  match dispatch.resolve? "spaces" with
  | some (owner, rule) =>
    following ((Target.rule owner rule).checkCount []) fun _ =>
      recorder frame dispatch owner rule [] st
  | none => {}

/-- The journal of a built-in rule: a token applies white space, and may break off after that. -/
def builtinJournal (apply : Applier φ) (recorder : Recorder φ) (frame : Frame)
    (dispatch : Grammar) : Builtin → State φ → Journal φ
  | .token, st =>
    spacesJournal recorder frame dispatch st ++
      following (applySpaces apply frame dispatch st) fun (_, st) => .seen st.memo
  | _, _ => {}

/-- The journal of the application of what a name means. -/
def targetJournal (apply : Applier φ) (recorder : Recorder φ) (frame : Frame) (dispatch : Grammar)
    (target : Target) (args : List Value) (st : State φ) : Journal φ :=
  following (target.checkCount args) fun _ =>
    match target, args with
    | .rule owner rule, args => recorder frame dispatch owner rule args st
    | .builtin .apply, .string name :: rest =>
      match dispatch.target? name with
      | some t => targetJournal apply recorder frame dispatch t rest st
      | none => {}
    | .builtin b, _ => builtinJournal apply recorder frame dispatch b st
termination_by structural args

/-- The journal of the rounds of a repetition, after so many. -/
def roundsJournal (body : Run φ) (journal : Scope → State φ → Journal φ) (max : Option Nat) :
    (fuel : Nat) → (count : Nat) → Scope → State φ → Journal φ
  | 0, _, _, st => .seen st.memo
  | fuel + 1, count, scope, st =>
    if max.any fun max => max ≤ count then {}
    else
      journal scope st ++ following (body scope st) fun r =>
        if r.value.isSome ∧ r.state.pos ≠ st.pos then
          roundsJournal body journal max fuel (count + 1) r.scope r.state
        else {}

/-- The journal of an expression that applies a name; no other does something to the table. -/
def applicationJournal (apply : Applier φ) (recorder : Recorder φ) (registry : Registry) (e : Expr)
    (ctx : Context) (scope : Scope) (st : State φ) : Journal φ :=
  .seen st.memo ++
    match e.application? ctx.dispatch ctx.owner with
    | some (args, .ok (g, target)) =>
      following (Action.evalAll registry scope args) fun values =>
        targetJournal apply recorder ctx.frame g target values st
    | _ => {}

namespace Expr

mutual

/-- **The journal of an expression.** Only an application does something to the table of the frame,
and only a nested match enters another frame. -/
def journal (apply : Applier φ) (recorder : Recorder φ) (registry : Registry) :
    Expr → Context → Scope → State φ → Journal φ
  | sequence items, ctx, scope, st =>
    sequenceJournal apply recorder registry items { ctx with sequenceStart := some st.pos } scope st
  | choice alternatives, ctx, scope, st =>
    choiceJournal apply recorder registry alternatives ctx scope st
  | repeated body _ max, ctx, scope, st =>
    roundsJournal (body.eval apply registry ctx) (journal apply recorder registry body ctx) max
      (ctx.frame.input.size - st.pos + 1) 0 scope st
  | lookahead negated body, ctx, scope, st =>
    journal apply recorder registry body ctx scope
      (if negated then { st with account := Account.empty } else st)
  | bind _ body, ctx, scope, st | capture body, ctx, scope, st =>
    journal apply recorder registry body ctx scope st
  | nested body, ctx, scope, st =>
    match ctx.frame.enter? st.pos with
    | none => {}
    | some inner =>
      let ctx := { ctx with frame := inner, sequenceStart := none }
      (journal apply recorder registry body ctx scope (.start st.account)).inside
        ((body.eval apply registry ctx scope (.start st.account)).toOption.map (·.state.memo))
  | e, ctx, scope, st => applicationJournal apply recorder registry e ctx scope st

/-- The journal of the items of a sequence. -/
def sequenceJournal (apply : Applier φ) (recorder : Recorder φ) (registry : Registry) :
    List Expr → Context → Scope → State φ → Journal φ
  | [], _, _, _ => {}
  | e :: es, ctx, scope, st =>
    journal apply recorder registry e ctx scope st ++
      following (e.eval apply registry ctx scope st) fun r =>
        if r.value.isSome then sequenceJournal apply recorder registry es ctx r.scope r.state
        else {}

/-- The journal of the alternatives of a choice. -/
def choiceJournal (apply : Applier φ) (recorder : Recorder φ) (registry : Registry) :
    List Expr → Context → Scope → State φ → Journal φ
  | [], _, _, _ => {}
  | e :: es, ctx, scope, st =>
    journal apply recorder registry e ctx scope st ++
      following (e.eval apply registry ctx scope st) fun r =>
        if r.value.isSome then {}
        else choiceJournal apply recorder registry es ctx r.scope (r.state.moveTo st.pos)

end

end Expr

/-! ### Rules and runs -/

/-- **The journal of the application of a rule** nested at most `depth` deep. -/
def recorder (keep : Bool) (registry : Registry) (limit : Nat) : (depth : Nat) → Recorder φ
  | 0, _, _, _, _, _, _ => {}
  | depth + 1, frame, dispatch, owner, rule, args, st =>
    let apply : Applier φ := applyDepth (memoized keep) registry limit depth
    memoizedJournal frame (rule.call dispatch owner args)
      (runBody apply registry frame dispatch owner rule args)
      (rule.body.journal apply (recorder keep registry limit depth) registry
        { frame, dispatch, owner } (.ofParams rule.params args)) st

/-- **The journal of a run.** -/
def Engine.journal (e : Engine) (g : Grammar) (rule : String) (input : Input)
    (args : List Value) : Journal φ :=
  .seen .empty ++
    match g.target? rule with
    | some target =>
      targetJournal
        (applyDepth (memoized e.options.memoize) e.registry e.options.maxDepth e.options.maxDepth)
        (recorder e.options.memoize e.registry e.options.maxDepth e.options.maxDepth) { input } g
        target args (.start Account.empty)
    | none => {}

/-! ### What journals tell -/

section Telling

variable {keep : Bool} {s : Sheet φ} {lines more : List (Line φ)}

omit [Account φ] in
@[simp] theorem Line.acts_append : Line.acts (lines ++ more) = Line.acts lines ++ Line.acts more :=
  List.filterMap_append

/-- **Lines that are true of a sheet**: each has the table that those before it have led to, and
what is done to it fits there. -/
def Sheet.Told (keep : Bool) : Sheet φ → List (Line φ) → Prop
  | _, [] => True
  | s, ⟨m, none⟩ :: lines => s.memo = m ∧ Told keep s lines
  | s, ⟨m, some a⟩ :: lines => (s.memo = m ∧ s.Fits a) ∧ Told keep (s.after keep a) lines

theorem Sheet.told_append :
    s.Told keep (lines ++ more) ↔
      s.Told keep lines ∧ (s.run keep (Line.acts lines)).Told keep more := by
  induction lines generalizing s with
  | nil => exact (and_iff_right trivial).symm
  | cons l lines ih =>
    obtain ⟨m, _ | a⟩ := l
    · exact (and_congr_right fun _ => ih).trans and_assoc.symm
    · exact (and_congr_right fun _ => ih).trans and_assoc.symm

/-- What is done fits where it is done. -/
theorem Sheet.Told.lawful (h : s.Told keep lines) : s.Lawful keep (Line.acts lines) := by
  induction lines generalizing s with
  | nil => trivial
  | cons l lines ih =>
    obtain ⟨m, _ | a⟩ := l
    · exact ih h.2
    · exact ⟨h.1.2, ih h.2⟩

/-- **What was done before a line leads to its table.** -/
theorem Sheet.Told.memo_eq {before rest : List (Line φ)} {l : Line φ}
    (h : s.Told keep (before ++ l :: rest)) : (s.run keep (Line.acts before)).memo = l.memo := by
  have hl := (told_append.1 h).2
  obtain ⟨m, _ | a⟩ := l
  · exact hl.1
  · exact hl.1.1

/-- **What is told of a frame is true**, from the empty table on, and leads to the table that was
there in the end, with nothing under way. -/
structure Visit.Kept (keep : Bool) (v : Visit φ) : Prop where
  told : Sheet.Told keep {} v.lines
  ends : ∀ m, v.left? = some m → Sheet.run keep {} (Line.acts v.lines) = ⟨m, []⟩

end Telling

/-! ### Where journals lead -/

namespace Journal

variable {α β : Type} {keep : Bool} {s : Sheet φ} {j k : Journal φ} {m : Except Halt α}
  {P : α → Sheet φ → Prop}

/-- **A journal leads on from a sheet**: its lines are true of it, and lead to a sheet that goes
with the result of the computation, unless that breaks off; and what is told of every frame that was
entered is true. -/
structure Leads (keep : Bool) (s : Sheet φ) (j : Journal φ) (m : Except Halt α)
    (P : α → Sheet φ → Prop) : Prop where
  told : s.Told keep j.lines
  reaches : ∀ a, m = .ok a → P a (s.run keep j.acts)
  inside : ∀ visit ∈ j.entered, visit.Kept keep

namespace Leads

/-- Nothing is done. -/
theorem still (h : ∀ a, m = .ok a → P a s) : Leads keep s {} m P :=
  ⟨trivial, h, by simp⟩

/-- The table as it is, and then all else. -/
theorem seen (h : Leads keep s j m P) : Leads keep s (.seen s.memo ++ j) m P :=
  ⟨⟨rfl, h.told⟩, h.reaches, h.inside⟩

/-- One act, and then all else. -/
theorem act {a : Act φ} (ha : s.Fits a) (h : Leads keep (s.after keep a) j m P) :
    Leads keep s (.done s.memo a ++ j) m P :=
  ⟨⟨⟨rfl, ha⟩, h.told⟩, h.reaches, h.inside⟩

/-- One act, and nothing else. -/
theorem last {a : Act φ} (ha : s.Fits a) (h : ∀ b, m = .ok b → P b (s.after keep a)) :
    Leads keep s (.done s.memo a) m P :=
  ⟨⟨⟨rfl, ha⟩, trivial⟩, h, by simp [done]⟩

/-- One computation after the other. -/
theorem bind {f : α → Except Halt β} {next : α → Journal φ} {Q : β → Sheet φ → Prop}
    (h : Leads keep s j m P)
    (hk : ∀ a s', m = .ok a → P a s' → Leads keep s' (next a) (f a) Q) :
    Leads keep s (j ++ following m next) (m >>= f) Q := by
  cases m with
  | error halt =>
    refine ⟨?_, nofun, ?_⟩
    · show s.Told keep (j.lines ++ [])
      rw [List.append_nil]
      exact h.told
    · show ∀ visit ∈ j.entered ++ [], _
      rw [List.append_nil]
      exact h.inside
  | ok a =>
    have hnext := hk a _ rfl (h.reaches a rfl)
    refine ⟨Sheet.told_append.2 ⟨h.told, hnext.told⟩, fun b hb => ?_, ?_⟩
    · show Q b (s.run keep (Line.acts (j.lines ++ (next a).lines)))
      rw [Line.acts_append, Sheet.run_append]
      exact hnext.reaches b hb
    · exact List.forall_mem_append.2 ⟨h.inside, hnext.inside⟩

/-- What comes after a computation may leave the tables alone. -/
theorem thenStill {f : α → Except Halt β} {Q : β → Sheet φ → Prop} (h : Leads keep s j m P)
    (hk : ∀ a s' b, m = .ok a → P a s' → f a = .ok b → Q b s') : Leads keep s j (m >>= f) Q := by
  refine ⟨h.told, fun b hb => ?_, h.inside⟩
  obtain ⟨a, ha, hb⟩ := bind_eq_ok hb
  exact hk a _ b ha (h.reaches a ha) hb

end Leads

/-- **A journal leads from one table to another**, whatever is under way: `memo` says which table a
result leaves behind. -/
def Keeps (keep : Bool) (before : Memo φ) (j : Journal φ) (m : Except Halt α) (memo : α → Memo φ) :
    Prop :=
  ∀ tasks, j.Leads keep ⟨before, tasks⟩ m fun a s => s = ⟨memo a, tasks⟩

namespace Keeps

variable {before : Memo φ} {memo : α → Memo φ} {memo' : β → Memo φ} {f : α → Except Halt β}

theorem still (h : ∀ a, m = .ok a → memo a = before) : Keeps keep before {} m memo :=
  fun tasks => .still fun a ha => by rw [h a ha]

theorem seen (h : Keeps keep before j m memo) : Keeps keep before (.seen before ++ j) m memo :=
  fun tasks => (h tasks).seen

/-- The table as it is, and nothing else. -/
theorem only (h : ∀ a, m = .ok a → memo a = before) : Keeps keep before (.seen before) m memo :=
  (still h).seen

theorem bind {next : α → Journal φ} (h : Keeps keep before j m memo)
    (hk : ∀ a, m = .ok a → Keeps keep (memo a) (next a) (f a) memo') :
    Keeps keep before (j ++ following m next) (m >>= f) memo' := by
  intro tasks
  refine (h tasks).bind fun a s' ha hs => ?_
  subst hs
  exact hk a ha tasks

theorem thenStill (h : Keeps keep before j m memo)
    (hk : ∀ a b, m = .ok a → f a = .ok b → memo' b = memo a) :
    Keeps keep before j (m >>= f) memo' := by
  intro tasks
  refine (h tasks).thenStill fun a s' b ha hs hb => ?_
  rw [hs, hk a b ha hb]

/-- What comes first may leave the tables alone. -/
theorem after {next : α → Journal φ}
    (hk : ∀ a, m = .ok a → Keeps keep before (next a) (f a) memo') :
    Keeps keep before (following m next) (m >>= f) memo' := by
  cases m with
  | ok a => exact hk a rfl
  | error h => exact .still nofun

end Keeps

/-- What is done to the tables of other frames is not done to this one. -/
theorem Keeps.inside {before : Memo φ} {memo : α → Memo φ} (h : Keeps keep .empty j m memo) :
    Keeps keep before (j.inside (m.toOption.map memo)) m fun _ => before := by
  intro _
  refine ⟨trivial, fun _ _ => rfl, List.forall_mem_cons.2 ⟨⟨(h []).told, fun w hw => ?_⟩,
    (h []).inside⟩⟩
  cases m with
  | error halt => cases hw
  | ok a =>
    cases hw
    exact (h []).reaches a rfl

omit [Account φ] in
/-- An action that fails breaks a match off. -/
theorem following_ofAction (c : Except Cause α) (next : α → Journal φ) :
    following (Halt.ofAction c) next = following c next := by
  cases c <;> rfl

end Journal

section

variable {keep : Bool} {registry : Registry} {recorder : Recorder φ} {apply : Applier φ}

open Journal

/-! ### Applications -/

/-- The journals that a recorder draws up lead where the applications do. -/
def Recorder.Keeps (keep : Bool) (recorder : Recorder φ) (apply : Applier φ) : Prop :=
  ∀ f d o r args (st : State φ),
    Journal.Keeps keep st.memo (recorder f d o r args st) (apply f d o r args st) fun a => a.2.memo

/-- The journals of a body lead where the body does. -/
def KeepsBody (keep : Bool) (journal : State φ → Journal φ) (body : Attempt φ) : Prop :=
  ∀ st : State φ, Journal.Keeps keep st.memo (journal st) (body st) fun a => a.2.memo

section Growth

variable {body : Attempt φ} {journal : State φ → Journal φ} {spot : Spot} {mark : Nat}
  {tasks : List Task}

/-- Where growth leads: the application is through with its last round. -/
def Ripe (spot : Spot) (mark : Nat) (tasks : List Task) (r : Value × State φ) (s : Sheet φ) :
    Prop :=
  s = ⟨r.2.memo, ⟨spot, mark, some (r.1, r.2.pos), .cleared⟩ :: tasks⟩

/-- **Growth**: every round stores the seed, forgets, and runs the body; in the end it is forgotten
once more. -/
theorem growJournal_leads (hb : KeepsBody keep journal body) {fuel : Nat} {seed : Value}
    {stop : Nat} {st : State φ} {old : Option (Value × Nat)}
    (hold : old = none → st.memo.isLeftRecursive spot = true) :
    (growJournal body journal spot mark fuel seed stop st).Leads keep
      ⟨st.memo, ⟨spot, mark, old, .running⟩ :: tasks⟩ (grow body spot mark fuel seed stop st)
      (Ripe spot mark tasks) := by
  induction fuel generalizing seed stop st old with
  | zero => exact .seen (.still nofun)
  | succ fuel ih =>
    rw [grow_succ, growJournal]
    refine .act (.sow hold) (.act (.clear (by simp)) (.act .again ?_))
    -- the last round ends where the seed does, and what was begun in it is forgotten
    have hlast (st : State φ) : Leads keep
        ⟨st.memo, ⟨spot, mark, some (seed, stop), .running⟩ :: tasks⟩ (.done st.memo (.clear spot))
        (.ok (seed, st.grown stop mark)) (Ripe spot mark tasks) :=
      .last (.clear (by simp)) fun r hr => by cases hr; rfl
    refine (hb (st.seeded spot mark seed stop) _).bind fun a s' _ hs => ?_
    obtain ⟨v, st'⟩ := a
    subst hs
    cases v with
    | none => exact hlast st'
    | some v =>
      dsimp only
      split
      · exact ih nofun
      · exact hlast st'

/-- Where the body of an application leads, with growth if the application was met. -/
def Ripened (spot : Spot) (mark : Nat) (tasks : List Task) (r : Option Value × State φ)
    (s : Sheet φ) : Prop :=
  s = ⟨r.2.memo, ⟨spot, mark, none, .running⟩ :: tasks⟩ ∨
    ∃ v, r.1 = some v ∧ Ripe spot mark tasks (v, r.2) s

theorem ripenedJournal_leads (hb : KeepsBody keep journal body) {f : Frame} {st : State φ} :
    (ripenedJournal body journal f spot mark st).Leads keep
      ⟨st.memo, ⟨spot, mark, none, .running⟩ :: tasks⟩ (ripened body f spot mark st)
      (Ripened spot mark tasks) := by
  unfold ripenedJournal ripened
  refine (hb st _).bind fun a s' _ hs => ?_
  obtain ⟨v, inside⟩ := a
  subst hs
  cases v with
  | none => exact .still fun r hr => by cases hr; exact .inl rfl
  | some seed =>
    dsimp only
    split
    next hl =>
      refine (growJournal_leads hb fun _ => hl).thenStill fun r s' b _ hs hr => ?_
      cases hr
      exact .inr ⟨r.1, rfl, hs⟩
    next => exact .still fun r hr => by cases hr; exact .inl rfl

end Growth

/-- **Applications through the table.** -/
theorem memoizedJournal_keeps {f : Frame} {call : Call} {body : Attempt φ}
    {journal : State φ → Journal φ} (hb : KeepsBody keep journal body) :
    KeepsBody keep (memoizedJournal f call body journal) (memoized keep f call body) := by
  intro st tasks
  cases hg : st.memo.get? (st.pos, call) with
  | some entry =>
    cases entry with
    | active met =>
      rw [memoized_of_active hg]
      simp only [memoizedJournal, hg]
      exact .last (.meet hg) fun a ha => by cases ha; rfl
    | done value stop account =>
      rw [memoized_of_done hg]
      simp only [memoizedJournal, hg]
      exact .still fun a ha => by cases ha; rfl
  | none =>
    rw [memoized_of_none hg]
    simp only [memoizedJournal, hg]
    refine .act (.begin hg) ?_
    show Leads keep
      ⟨(st.entered call).memo, ⟨(st.pos, call), st.memo.mark, none, .running⟩ :: tasks⟩ _ _ _
    refine (ripenedJournal_leads hb).bind fun r s' _ hs => ?_
    obtain ⟨v, inside⟩ := r
    obtain rfl | ⟨v, rfl, rfl⟩ := hs
    · exact .last .settle fun a ha => by cases ha; rfl
    · exact .last .ripen fun a ha => by cases ha; rfl

/-! ### Names -/

section Names

variable {f : Frame} {d : Grammar} {st : State φ}

theorem Frame.any_memo : (f.any st).2.memo = st.memo := by
  unfold any
  split <;> rfl

theorem Frame.exactly_memo {v : Value} : (f.exactly v st).2.memo = st.memo := by
  unfold exactly
  split <;> rfl

theorem Frame.literal_memo {text : String} : (f.literal text st).2.memo = st.memo := by
  unfold literal
  split <;> rfl

theorem Frame.charIf_memo {test : Char → Bool} {label : String} :
    (f.charIf test label st).2.memo = st.memo := by
  unfold charIf
  split
  · split <;> rfl
  · rfl

theorem Frame.itemIf_memo {test : Value → Bool} {label : String} :
    (f.itemIf test label st).2.memo = st.memo := by
  unfold itemIf
  split
  · rfl
  · split
    · split <;> rfl
    · rfl

theorem Frame.sequel_memo {v : Value} {a : Answer φ} (h : f.sequel v st = .ok a) :
    a.2.memo = st.memo := by
  unfold sequel at h
  split at h
  · cases h
    exact literal_memo
  · split at h
    · cases h
    · cases h
      exact exactly_memo

/-- A built-in rule does nothing to the table but where it applies white space. -/
theorem applyBuiltin_memo {b : Builtin} (hb : b ≠ .token) {args : List Value} {a : Answer φ}
    (h : applyBuiltin apply f d b args st = .ok a) : a.2.memo = st.memo := by
  cases b with
  | anything =>
    cases h
    exact Frame.any_memo
  | «end» =>
    simp only [applyBuiltin, Except.ok.injEq] at h
    subst h
    split <;> rfl
  | empty | spaces | pos | apply =>
    cases h
    rfl
  | space | digit | letter | char =>
    cases h
    exact Frame.charIf_memo
  | string | number =>
    cases h
    exact Frame.itemIf_memo
  | col =>
    simp only [applyBuiltin] at h
    split at h <;> cases h <;> rfl
  | seq => exact Frame.sequel_memo h
  | token => exact absurd rfl hb
  | exactly =>
    cases h
    exact Frame.exactly_memo

theorem spacesJournal_keeps (hr : recorder.Keeps keep apply) :
    Journal.Keeps keep st.memo (spacesJournal recorder f d st) (applySpaces apply f d st)
      fun a => a.2.memo := by
  unfold spacesJournal applySpaces
  cases d.resolve? "spaces" with
  | some found => exact .after fun _ _ => hr f d found.1 found.2 [] st
  | none => exact .still fun a ha => by cases ha; rfl

/-- White space, then the text itself, for which nothing is done to the table. -/
theorem tokenJournal_keeps (hr : recorder.Keeps keep apply) {v : Value} :
    Journal.Keeps keep st.memo (builtinJournal apply recorder f d .token st)
      (applyToken apply f d v st) fun a => a.2.memo := by
  unfold applyToken
  refine (spacesJournal_keeps hr).bind fun a _ => ?_
  obtain ⟨v, st'⟩ := a
  refine Keeps.only fun b hb => ?_
  cases v with
  | none =>
    cases hb
    rfl
  | some w =>
    obtain ⟨⟨v', st''⟩, hs, hb⟩ := bind_eq_ok hb
    have hmemo : st''.memo = st'.memo := Frame.sequel_memo hs
    cases v' with
    | none =>
      cases hb
      exact hmemo
    | some w' =>
      cases hb
      exact hmemo

theorem builtinJournal_keeps (hr : recorder.Keeps keep apply) {b : Builtin} {args : List Value} :
    Journal.Keeps keep st.memo (builtinJournal apply recorder f d b st)
      (applyBuiltin apply f d b args st) fun a => a.2.memo := by
  by_cases hb : b = .token
  · subst hb
    exact tokenJournal_keeps hr
  · rw [builtinJournal]
    · exact .still fun a ha => applyBuiltin_memo hb ha
    · exact hb

/-- **What a name means.** -/
theorem targetJournal_keeps (hr : recorder.Keeps keep apply) {target : Target}
    {args : List Value} :
    Journal.Keeps keep st.memo (targetJournal apply recorder f d target args st)
      (applyTarget apply f d target args st) fun a => a.2.memo := by
  -- `apply` takes the name of a rule off its arguments, so what it applies has fewer of them
  induction args generalizing target with
  | nil =>
    unfold targetJournal applyTarget
    refine .after fun _ _ => ?_
    cases target with
    | rule o r => exact hr f d o r [] st
    | builtin b => cases b <;> exact builtinJournal_keeps hr
  | cons v rest ih =>
    unfold targetJournal applyTarget
    refine .after fun _ _ => ?_
    cases target with
    | rule o r => exact hr f d o r (v :: rest) st
    | builtin b =>
      cases b with
      | apply =>
        cases v with
        | string name =>
          dsimp only
          cases d.target? name with
          | some t => exact ih
          | none => exact .still fun a ha => by cases ha; rfl
        | _ => exact builtinJournal_keeps hr
      | _ => exact builtinJournal_keeps hr

end Names

/-! ### Expressions -/

/-- The journals of an expression lead where its evaluations do. -/
def KeepsRun (keep : Bool) (journal : Scope → State φ → Journal φ) (run : Run φ) : Prop :=
  ∀ scope (st : State φ),
    Journal.Keeps keep st.memo (journal scope st) (run scope st) fun r => r.state.memo

/-- Rounds of a repetition. -/
theorem roundsJournal_keeps {body : Run φ} {journal : Scope → State φ → Journal φ}
    (hb : KeepsRun keep journal body) {min : Nat} {max : Option Nat} {fuel : Nat}
    (taken : Array Value) {scope : Scope} {st : State φ} :
    Journal.Keeps keep st.memo (roundsJournal body journal max fuel taken.size scope st)
      (repeatRounds body min max fuel taken scope st) fun r => r.2.2.memo := by
  induction fuel generalizing taken scope st with
  | zero =>
    unfold roundsJournal repeatRounds
    split
    · exact .only fun a ha => by cases ha; rfl
    · exact .only fun a ha => by cases ha
  | succ fuel ih =>
    unfold roundsJournal repeatRounds
    by_cases hmax : (max.any fun max => max ≤ taken.size) = true
    · rw [if_pos hmax, if_pos hmax]
      exact .still fun a ha => by cases ha; rfl
    · rw [if_neg hmax, if_neg hmax]
      refine (hb scope st).bind fun r _ => ?_
      obtain ⟨v, scope', st'⟩ := r
      cases v with
      | none => exact .still fun a ha => by cases ha; rfl
      | some v =>
        by_cases hp : st'.pos = st.pos
        · simp only [hp, ne_eq, not_true, and_false, if_false, if_true]
          exact .still fun a ha => by cases ha; rfl
        · simp only [hp, Option.isSome_some, ne_eq, not_false_eq_true, and_self, if_true, if_false]
          rw [← Array.size_push v]
          exact ih (taken.push v)

/-- An application. -/
theorem applicationJournal_keeps (hr : recorder.Keeps keep apply) {e : Expr} {ctx : Context}
    {scope : Scope} {st : State φ} {args : List Action} {meaning : Except Cause (Grammar × Target)}
    (h : e.application? ctx.dispatch ctx.owner = some (args, meaning)) :
    Journal.Keeps keep st.memo (applicationJournal apply recorder registry e ctx scope st)
      (e.eval apply registry ctx scope st) fun r => r.state.memo := by
  rw [Expr.eval_application h, applicationJournal, h]
  refine .seen ?_
  cases meaning with
  | error c =>
    refine .still fun r hr => ?_
    obtain ⟨values, -, hr⟩ := bind_eq_ok hr
    cases hr
  | ok target =>
    dsimp only
    rw [← following_ofAction]
    refine .after fun values _ => (targetJournal_keeps hr).thenStill fun r b _ hb => ?_
    cases hb
    rfl

namespace Expr

mutual

/-- **The journal of an expression leads where its evaluation does**, if the journals of the
applications in it do. -/
theorem journal_keeps (hr : recorder.Keeps keep apply) : ∀ (e : Expr) (ctx : Context),
    KeepsRun keep (e.journal apply recorder registry ctx) (e.eval apply registry ctx)
  | sequence items, ctx, scope, st => by
    rw [journal, eval]
    refine (sequenceJournal_keeps hr items _ .nil scope st).thenStill fun r b _ hb => ?_
    cases hb
    unfold Reply.rewind
    split <;> rfl
  | choice alternatives, ctx, scope, st => by
    rw [journal, eval]
    exact choiceJournal_keeps hr alternatives ctx scope st
  | repeated body min max, ctx, scope, st => by
    rw [journal, eval]
    refine (roundsJournal_keeps (journal_keeps hr body ctx) #[]).thenStill fun r b _ hb => ?_
    obtain ⟨taken, scope', st'⟩ := r
    dsimp only at hb
    split at hb <;> cases hb <;> rfl
  | lookahead negated body, ctx, scope, st => by
    rw [journal, eval]
    unfold evalLookahead
    cases negated with
    | true =>
      refine (journal_keeps hr body ctx scope { st with account := Account.empty }).thenStill
        fun r b _ hb => ?_
      cases hb
      rfl
    | false =>
      refine (journal_keeps hr body ctx scope st).thenStill fun r b _ hb => ?_
      cases hb
      rfl
  | bind name body, ctx, scope, st => by
    rw [journal, eval]
    refine (journal_keeps hr body ctx scope st).thenStill fun r b _ hb => ?_
    split at hb <;> cases hb <;> rfl
  | capture body, ctx, scope, st => by
    rw [journal, eval]
    refine (journal_keeps hr body ctx scope st).thenStill fun r b _ hb => ?_
    cases hb
    rfl
  | nested body, ctx, scope, st => by
    rw [journal, eval]
    unfold evalNested
    dsimp only
    cases ctx.frame.enter? st.pos with
    | none => exact .still fun a ha => by cases ha; rfl
    | some inner =>
      have hinner := journal_keeps hr body { ctx with frame := inner, sequenceStart := none } scope
        (.start st.account)
      refine (Keeps.inside hinner).thenStill fun r b _ hb => ?_
      split at hb
      · cases hb
        rfl
      · split at hb <;> cases hb <;> rfl
  | .apply rule args, ctx, scope, st =>
    applicationJournal_keeps hr (show (Expr.apply rule args).application? _ _ = some _ from rfl)
  | super rule args, ctx, scope, st =>
    applicationJournal_keeps hr (show (super rule args).application? _ _ = some _ from rfl)
  | foreign grammar rule args, ctx, scope, st =>
    applicationJournal_keeps hr
      (show (foreign grammar rule args).application? _ _ = some _ from rfl)
  | any, ctx, scope, st => by
    rw [eval]
    exact .only fun a ha => by cases ha; exact Frame.any_memo
  | terminal v, ctx, scope, st => by
    rw [eval]
    exact .only fun a ha => by cases ha; exact Frame.exactly_memo
  | literal text, ctx, scope, st => by
    rw [eval]
    exact .only fun a ha => by cases ha; exact Frame.literal_memo
  | range low high, ctx, scope, st => by
    rw [eval]
    exact .only fun a ha => by cases ha; exact Frame.charIf_memo
  | action a, ctx, scope, st => by
    rw [eval]
    refine .only fun r hr => ?_
    obtain ⟨v, -, hr⟩ := bind_eq_ok hr
    cases hr
    rfl
  | guard a, ctx, scope, st => by
    rw [eval]
    refine .only fun r hr => ?_
    obtain ⟨v, -, hr⟩ := bind_eq_ok hr
    dsimp only at hr
    split at hr <;> cases hr <;> rfl

theorem sequenceJournal_keeps (hr : recorder.Keeps keep apply) : ∀ (es : List Expr) (ctx : Context)
    (last : Value), KeepsRun keep (sequenceJournal apply recorder registry es ctx)
      (evalSequence apply registry es ctx last)
  | [], ctx, last, scope, st => by
    rw [sequenceJournal, evalSequence]
    exact .still fun a ha => by cases ha; rfl
  | e :: es, ctx, last, scope, st => by
    rw [sequenceJournal, evalSequence]
    refine (journal_keeps hr e ctx scope st).bind fun r _ => ?_
    obtain ⟨v, scope', st'⟩ := r
    cases v with
    | none => exact .still fun a ha => by cases ha; rfl
    | some v => exact sequenceJournal_keeps hr es ctx v scope' st'

theorem choiceJournal_keeps (hr : recorder.Keeps keep apply) : ∀ (es : List Expr) (ctx : Context),
    KeepsRun keep (choiceJournal apply recorder registry es ctx) (evalChoice apply registry es ctx)
  | [], ctx, scope, st => by
    rw [choiceJournal, evalChoice]
    exact .still fun a ha => by cases ha; rfl
  | e :: es, ctx, scope, st => by
    rw [choiceJournal, evalChoice]
    refine (journal_keeps hr e ctx scope st).bind fun r _ => ?_
    obtain ⟨v, scope', st'⟩ := r
    cases v with
    | some v => exact .still fun a ha => by cases ha; rfl
    | none => exact choiceJournal_keeps hr es ctx scope' (st'.moveTo st.pos)

end

end Expr

end

/-! ### Rules and runs -/

/-- **The journals of the applications of rules** lead where these do, at any depth. -/
theorem recorder_keeps (keep : Bool) (registry : Registry) (limit depth : Nat) :
    (recorder (φ := φ) keep registry limit depth).Keeps keep
      (applyDepth (memoized keep) registry limit depth) := by
  induction depth with
  | zero => exact fun _ _ _ _ _ _ => .still nofun
  | succ depth ih =>
    intro f d o r args st
    refine memoizedJournal_keeps (fun st => ?_) st
    refine (Expr.journal_keeps ih r.body _ _ st).thenStill fun a b _ hb => ?_
    cases hb
    rfl

namespace Engine

/-- **The journal of a run** leads from an empty table to the one that the run leaves behind. -/
theorem journal_keeps (e : Engine) (g : Grammar) (rule : String) (input : Input)
    (args : List Value) :
    Journal.Keeps e.options.memoize .empty (e.journal g rule input args : Journal φ)
      (e.start g rule input args) fun a : Answer φ => a.2.memo := by
  unfold journal start applyName
  refine .seen ?_
  cases g.target? rule with
  | some target =>
    show Journal.Keeps _ (State.start (Account.empty : φ)).memo _ _ _
    exact targetJournal_keeps (recorder_keeps _ _ _ _)
  | none => exact .still nofun

/-- **The discipline of the tables of a run.** What a run does to its tables is told by its journal,
which leads to the table that it leaves behind, with nothing under way; and so it is with every
frame that is entered and left again. In every frame, all that is done to the table up to the end of
the run, or to where it breaks off, is disciplined; and what is done before any line, such as the
last one where the run breaks off, leads to the table that the match has there. -/
theorem table_discipline (e : Engine) (g : Grammar) (rule : String) (input : Input)
    (args : List Value) :
    (∀ v st, (e.start g rule input args : Except Halt (Answer φ)) = .ok (v, st) →
      Sheet.run e.options.memoize {} (e.journal g rule input args).acts = ⟨st.memo, []⟩) ∧
      (∀ visit ∈ (e.journal g rule input args : Journal φ).entered, ∀ m, visit.left? = some m →
        Sheet.run e.options.memoize {} (Line.acts visit.lines) = ⟨m, []⟩) ∧
      ∀ lines ∈ (e.journal g rule input args : Journal φ).frames,
        Disciplined e.options.memoize (Line.acts lines) ∧
          ∀ before line rest, lines = before ++ line :: rest →
            (Sheet.run e.options.memoize {} (Line.acts before)).memo = line.memo := by
  have hkeeps := e.journal_keeps (φ := φ) g rule input args []
  refine ⟨fun v st h => hkeeps.reaches _ h, fun visit hvisit => (hkeeps.inside visit hvisit).ends,
    fun lines hlines => ?_⟩
  have htold : Sheet.Told e.options.memoize {} lines := by
    rcases List.mem_cons.1 hlines with rfl | hlines
    · exact hkeeps.told
    · obtain ⟨visit, hvisit, rfl⟩ := List.mem_map.1 hlines
      exact (hkeeps.inside visit hvisit).told
  refine ⟨htold.lawful.disciplined, ?_⟩
  rintro before line rest rfl
  exact htold.memo_eq

/-- The journal of a run over `a,a`. -/
def listsJournal : Journal Furthest :=
  ({} : Engine).journal Draft.lists.freeze "list" (.ofString "a,a") []

/-- The run itself. -/
def listsStart : Except Halt (Answer Furthest) :=
  ({} : Engine).start Draft.lists.freeze "list" (.ofString "a,a") []

/-- The list grows by one item in its first round and by nothing in its second; the item in front
is found in the table until growth forgets it. -/
theorem table_discipline_lists :
    (listsJournal.acts.filterMap Act.evaluated?).map (fun x => (x.1, x.2.rule)) =
        [(0, "list"), (0, "item"), (0, "word"), (0, "list"), (2, "item"), (2, "word"), (0, "list"),
          (0, "item"), (0, "word")] ∧
      (∃ v st, listsStart = .ok (some v, st) ∧
        Sheet.run true {} listsJournal.acts = ⟨st.memo, []⟩) ∧
      Disciplined true listsJournal.acts := by
  obtain ⟨hreach, -, hframes⟩ :=
    table_discipline (φ := Furthest) {} Draft.lists.freeze "list" (.ofString "a,a") []
  refine ⟨by decide +kernel, ?_, (hframes _ (List.mem_cons_self ..)).1⟩
  have hmatched : listsStart.toOption.any (fun r => r.1.isSome) = true := by decide +kernel
  cases hstart : listsStart with
  | error halt =>
    rw [hstart] at hmatched
    cases hmatched
  | ok r =>
    obtain ⟨v, st⟩ := r
    cases v with
    | none =>
      rw [hstart] at hmatched
      cases hmatched
    | some v => exact ⟨v, st, rfl, hreach _ st hstart⟩

end Engine

end Packrat
