import Packrat.Proofs.Lineage
import Packrat.Proofs.Progress
import Packrat.Proofs.Runs
import Packrat.Translate

/-!
# Places

A report names a place by a path: the positions of the elements that were entered, then a position
among the contents of the last one. Here is what such a path leads to, said of the input alone, and
that every report of a failed match points to a place that is there.

A report is put together from far apart: it may have been made where a sequence started, have been
kept in a table and be merged with others. All that matters is that no step ever names a place
outside of the frame it is made in, and that frames are entered only along the input.

* `Input.enter?`, `Input.follow?`: the contents of an element, and what a path leads to.
* `Frame.Of`: a frame is what its path leads to.
* `Failure.PointsInto`: the report is about a place in an input.
* `Engine.failure_pointsInto`: every report of a failed match is.
-/

namespace Packrat

namespace Input

/-- What can be entered at a position: the contents of a list, of a node with its tag, or of a
string that is an item. A node contains its tag, then its children. -/
def enter? (input : Input) (pos : Nat) : Option (Input × Option String) :=
  match input.element? pos with
  | some (.list values) => some (.ofList values, none)
  | some (.node tag children) => some (.ofList (.string tag :: children), some tag)
  | some (.string s) => if input.isText then none else some (.ofString s, none)
  | _ => none

/-- **What a path leads to**: the contents of the last element on it, and the tags of the nodes on
the way, outermost first. -/
def follow? : Input → List Nat → Option (Input × List String)
  | input, [] => some (input, [])
  | input, i :: path =>
    match input.enter? i with
    | some (contents, tag) =>
      (contents.follow? path).map fun (inner, tags) => (inner, tag.toList ++ tags)
    | none => none

variable {input contents inner : Input} {path : List Nat} {tags : List String} {i : Nat}

/-- A path that leads somewhere goes one element further. -/
theorem follow?_snoc {tag : Option String} (h : input.follow? path = some (contents, tags))
    (he : contents.enter? i = some (inner, tag)) :
    input.follow? (path ++ [i]) = some (inner, tags ++ tag.toList) := by
  induction path generalizing input tags with
  | nil =>
    cases h
    simp [follow?, he]
  | cons j path ih =>
    simp only [List.cons_append, follow?] at h ⊢
    cases hj : input.enter? j with
    | none => simp [hj] at h
    | some first =>
      simp only [hj] at h ⊢
      obtain ⟨⟨c, rest⟩, hc, heq⟩ := Option.map_eq_some_iff.1 h
      cases heq
      rw [ih hc]
      simp

/-- A text has no elements to enter. -/
theorem enter?_of_isText (h : input.isText = true) : input.enter? i = none := by
  cases input with
  | items values => cases h
  | text chars =>
    unfold enter? element?
    cases hc : chars[i]? <;> simp [hc, isText]

end Input

/-- A frame is entered along the input, and takes the tag of a node along. -/
theorem Frame.enter?_eq (f : Frame) (pos : Nat) :
    f.enter? pos = (f.input.enter? pos).map fun (contents, tag) =>
      { input := contents, path := f.location pos, tags := f.tags ++ tag.toList } := by
  unfold Frame.enter? Input.enter?
  cases f.input.element? pos with
  | none => rfl
  | some v =>
    cases v with
    | string s => cases f.input.isText <;> simp
    | list items => simp
    | node tag children => simp
    | _ => rfl

/-- **A frame is what its path leads to** in the root, with the tags on the way. -/
def Frame.Of (root : Input) (f : Frame) : Prop := root.follow? f.path = some (f.input, f.tags)

theorem Frame.Of.enter {root : Input} {f inner : Frame} {p : Nat} (h : f.Of root)
    (he : f.enter? p = some inner) : inner.Of root := by
  rw [Frame.enter?_eq] at he
  obtain ⟨⟨contents, tag⟩, hc, rfl⟩ := Option.map_eq_some_iff.1 he
  exact Input.follow?_snoc h hc

/-- A miss that names a place in the root. -/
structure Miss.Of (root : Input) (m : Miss) : Prop where
  frame : m.frame.Of root
  within : m.pos ≤ m.frame.input.size

theorem Miss.Of.merge {root : Input} {a b : Miss} (ha : a.Of root) (hb : b.Of root) :
    (a.merge b).Of root := by
  unfold Miss.merge
  split
  · exact ha
  · exact hb
  -- at one place what is merged stays at the first of the two
  · exact ⟨ha.frame, ha.within⟩

/-- **Books on places**: the frames are those of the root, and the furthest miss is in one of
them. -/
def Books.ofRoot (root : Input) : Books Furthest where
  frames f := f.Of root
  places f p := p ≤ f.input.size
  accounts a := ∀ m, a = some m → m.Of root
  enter := Frame.Of.enter
  place _ h := h
  empty m h := by cases h
  miss hf hp m h := by
    cases h
    exact ⟨hf, hp⟩
  append {a b} ha hb m h := by
    cases b with
    | none =>
      cases a with
      | none => cases h
      | some x => exact ha m h
    | some y =>
      cases a with
      | none => exact hb m h
      | some x =>
        cases h
        exact (ha x rfl).merge (hb y rfl)
  rule {f rule start failed a} ha m h := by
    have h : Furthest.ofRule f rule start failed a = some m := h
    unfold Furthest.ofRule at h
    split at h
    · cases h
    · split at h
      · obtain ⟨x, hx, rfl⟩ := Option.map_eq_some_iff.1 h
        -- putting a miss down to a rule does not move it
        split
        · exact ⟨(ha x hx).frame, (ha x hx).within⟩
        · exact ha x hx
      · exact ha m h
  negation _ m h := by cases h

/-- **A report points into an input**: its location is a path through elements that can be entered,
then a position up to the end of what the path leads to. Line and excerpt are those of that
position, and the tags are those of the nodes on the path. -/
def Failure.PointsInto (input : Input) (f : Failure) : Prop :=
  ∃ path pos contents, f.location = path ++ [pos] ∧
    input.follow? path = some (contents, f.tags) ∧ pos ≤ contents.size ∧
    f.line = contents.lineCol? pos ∧ f.found = contents.snippet pos

theorem Miss.Of.report {root : Input} {m : Miss} (h : m.Of root) : m.report.PointsInto root :=
  ⟨m.frame.path, m.pos, m.frame.input, rfl, h.frame, h.within, rfl, rfl⟩

/-- The report of a sound state in the root points into it. -/
theorem State.Sound.report_pointsInto {input : Input} {st : State Furthest}
    (h : st.Sound (Books.ofRoot input) { input }) : (st.report { input }).PointsInto input := by
  unfold State.report
  cases ha : st.account with
  | some m => exact (h.account m ha).report
  | none => exact ⟨[], st.pos, input, rfl, rfl, h.within, rfl, rfl⟩

/-- In a text, a report gives a position and nothing else. -/
theorem Failure.PointsInto.of_text {input : Input} {f : Failure} (h : f.PointsInto input)
    (ht : input.isText = true) : ∃ p, f.location = [p] ∧ p ≤ input.size := by
  obtain ⟨path, p, contents, hl, hp, hs, -⟩ := h
  cases path with
  | nil =>
    obtain ⟨rfl, -⟩ : input = contents ∧ _ := by simpa [Input.follow?] using hp
    exact ⟨p, hl, hs⟩
  | cons i path => simp [Input.follow?, Input.enter?_of_isText ht] at hp

namespace Engine

variable {B : Books Furthest} {e : Engine} {g : Grammar} {rule : String} {input : Input}
  {args : List Value}

/-- A rule that is applied at the start of an input advances from there. -/
theorem start_advances (hf : B.frames { input }) :
    Ends (fun r => Advance B { input } (.start Account.empty) r.1 r.2)
      (e.start g rule input args) :=
  applyName_advances (applyDepth_advances _ _ _ _) ⟨hf, Nat.zero_le _, .empty, B.empty⟩

theorem run_pointsInto {toEnd : Bool} {f : Failure}
    (h : e.run g rule input args toEnd = .ok (.failure f)) : f.PointsInto input := by
  have ha : Ends (fun r => Advance (Books.ofRoot input) { input } (.start Account.empty) r.1 r.2)
      (e.start g rule input args) := start_advances rfl
  rw [run_eq] at h
  cases hs : e.start (φ := Furthest) g rule input args with
  | error halt => rw [hs] at h; cases h
  | ok r =>
    obtain ⟨v, st⟩ := r
    rw [hs] at h ha
    have hsound : st.Sound (Books.ofRoot input) { input } := ha.sound
    cases v with
    | none =>
      cases h
      exact hsound.report_pointsInto
    | some v =>
      have h : conclude input toEnd (some v, st) = .failure f := Except.ok.inj h
      simp only [conclude] at h
      split at h
      · cases h
        exact (hsound.expect hsound.within).report_pointsInto
      · cases h

/-- **Every report of a failed match points into its input.** In a text it gives one position, not
beyond the end. When a tree is transformed, the error names the nodes around the place in that tree
and the innermost of them, or the root if there is none. -/
theorem failure_pointsInto (e : Engine) (g : Grammar) (rule : String) :
    (∀ input args toEnd f, e.run g rule input args toEnd = .ok (.failure f) →
      f.PointsInto input ∧
        (input.isText = true → ∃ p, f.location = [p] ∧ p ≤ input.size)) ∧
    (∀ root f, e.run g rule (.ofList [root]) [] true = .ok (.failure f) →
      ∃ err path pos contents tags, e.translate root g rule = .error err ∧
        f.location = path ++ [pos] ∧
        (Input.ofList [root]).follow? path = some (contents, tags) ∧ pos ≤ contents.size ∧
        err.cause = .transform
          (tags.getLast?.getD (match root with | .node tag _ => tag | v => v.typeName)) tags f) := by
  refine ⟨fun input args toEnd f h => ?_, fun root f h => ?_⟩
  · have hp := run_pointsInto h
    exact ⟨hp, hp.of_text⟩
  · obtain ⟨path, pos, contents, hl, hp, hs, -⟩ := run_pointsInto h
    have ht : e.translate root g rule = .error (untranslated root f) := by
      unfold translate
      rw [h]
    exact ⟨_, path, pos, contents, f.tags, ht, hl, hp, hs, rfl⟩

/-- Rules for sums: `start = ['Add' num num]` and `num = ['Num' number]`. -/
def sums : Draft :=
  { name := "Sums"
    rules := [
      { name := "start", body := .nested (.sequence [.literal "Add", .app "num", .app "num"]) },
      { name := "num", body := .nested (.sequence [.literal "Num", .app "number"]) }] }

/-- A sum whose second summand is not a number. -/
def oddSum : Value :=
  .node "Add" [.node "Num" [.number (.ofNat 1)], .node "Num" [.string "x"]]

/-- The report of `oddSum`: in the second child of the root, in place of its first child. -/
def oddSumReport : Failure :=
  { location := [0, 2, 1], expected := .singleton "number", found := "x", tags := ["Add", "Num"] }

/-- Two nodes deep. -/
theorem failure_pointsInto_oddSum :
    (({} : Engine).run sums.freeze "start" (.ofList [oddSum]) [] true =
        .ok (.failure oddSumReport)) ∧
      oddSumReport.PointsInto (.ofList [oddSum]) ∧
      ∃ err, ({} : Engine).translate oddSum sums.freeze "start" = .error err ∧
        err.cause = .transform "Num" ["Add", "Num"] oddSumReport := by
  have hrun : ({} : Engine).run sums.freeze "start" (.ofList [oddSum]) [] true =
      .ok (.failure oddSumReport) := by decide +kernel
  obtain ⟨hfails, htree⟩ := failure_pointsInto {} sums.freeze "start"
  refine ⟨hrun, (hfails _ _ _ _ hrun).1, ?_⟩
  obtain ⟨err, path, pos, contents, tags, ht, hl, hp, -, hc⟩ := htree oddSum oddSumReport hrun
  refine ⟨err, ht, ?_⟩
  -- the path is read off the location, and the tags are what it leads past
  have hpath : path = [0, 2] ∧ pos = 1 := by
    have hl : [0, 2] ++ [1] = path ++ [pos] := hl
    simpa [eq_comm] using List.append_inj' hl rfl
  rw [hpath.1] at hp
  have htags : tags = ["Add", "Num"] := by
    have hp' : (Input.ofList [oddSum]).follow? [0, 2] =
        some (.ofList [.string "Num", .string "x"], ["Add", "Num"]) := by decide +kernel
    rw [hp'] at hp
    exact (Prod.mk.inj (Option.some.inj hp)).2.symm
  rw [hc, htags]
  rfl

end Engine

end Packrat
