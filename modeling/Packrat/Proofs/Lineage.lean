import Packrat.Grammar.Draft

/-!
# Lineage

A rule runs on behalf of one grammar and belongs to another, the nearest one in the line of
ancestors that defines it. A grammar is checked once, when it is built, against itself; what that
check is worth to its heirs is said here.

* `Grammar.Descends`: a grammar and those it inherits from.
* `Grammar.resolve?_eq_some`: a name is resolved within the line of ancestors.
* `Grammar.Descends.target?_isSome`: what means something to an ancestor means something to its
  heirs.
* `Grammar.Built`: grammars that came out of `Draft.build`, with all that they rest on.
* `Grammar.Built.checked`: what the check of a built grammar has found.
-/

namespace Packrat

namespace Grammar

/-- `o` is `g` or an ancestor of it. -/
inductive Descends : Grammar → Grammar → Prop
  | self (g : Grammar) : Descends g g
  | heir {g p o : Grammar} : g.parent = some p → Descends p o → Descends g o

variable {g o p : Grammar} {r : Rule} {name : String}

theorem rule?_name (h : g.rule? name = some r) : r.name = name := by
  unfold rule? Roster.get? at h
  simpa using List.find?_some h

/-- Resolution in one step: the grammar's own rule, else what its parent resolves. -/
theorem resolve?_eq (name : String) (g : Grammar) :
    g.resolve? name =
      match g.rule? name with
      | some r => some (g, r)
      | none => g.parent.bind fun p => p.resolve? name := by
  obtain ⟨n, parent, is, rules, stamp⟩ := g
  rw [resolve?.eq_def]
  dsimp only [rule?]
  cases Roster.get? Rule.name name rules with
  | some r => rfl
  | none => cases parent <;> rfl

/-- The import of a name in one step: the grammar's own, else that of its parent. -/
theorem import?_eq (name : String) (g : Grammar) :
    g.import? name =
      match Roster.get? Grammar.name name g.imports with
      | some h => some h
      | none => g.parent.bind fun p => p.import? name := by
  obtain ⟨n, parent, is, rules, stamp⟩ := g
  rw [import?.eq_def]
  dsimp only
  cases Roster.get? Grammar.name name is with
  | some r => rfl
  | none => cases parent <;> rfl

/-- **A name is resolved within the line of ancestors**, to a rule that bears it. -/
theorem resolve?_eq_some (name : String) : ∀ (g : Grammar) {o : Grammar} {r : Rule},
    g.resolve? name = some (o, r) → Descends g o ∧ o.rule? name = some r
  | ⟨n, parent, is, rules, stamp⟩, o, r, h => by
    rw [resolve?_eq] at h
    split at h
    next r' hr =>
      cases h
      exact ⟨.self _, hr⟩
    next =>
      cases parent with
      | none => cases h
      | some p =>
        obtain ⟨hd, hr⟩ := resolve?_eq_some name p h
        exact ⟨.heir rfl hd, hr⟩
termination_by structural g => g

namespace Descends

theorem trans (h : Descends g p) (h' : Descends p o) : Descends g o := by
  induction h with
  | self => exact h'
  | heir hp _ ih => exact .heir hp (ih h')

/-- What an ancestor resolves, its heirs resolve, perhaps to another rule. -/
theorem resolve?_isSome (h : Descends g o) (hr : (o.resolve? name).isSome) :
    (g.resolve? name).isSome := by
  induction h with
  | self => exact hr
  | heir hp _ ih =>
    rw [resolve?_eq, hp]
    split
    · rfl
    · exact ih hr

/-- **What means something to an ancestor means something to its heirs.** -/
theorem target?_isSome (h : Descends g o) (ht : (o.target? name).isSome) :
    (g.target? name).isSome := by
  unfold target? at ht ⊢
  cases hg : g.resolve? name with
  | some _ => rfl
  | none =>
    -- then the ancestor resolves nothing either, and both mean the built-in rule
    cases ho : o.resolve? name with
    | none => rwa [ho] at ht
    | some _ =>
      have hs : (g.resolve? name).isSome := h.resolve?_isSome (by rw [ho]; rfl)
      rw [hg] at hs
      cases hs

end Descends

/-! ### Built grammars -/

/-- **Built grammars**: those that a draft gives whose parent and imports were built before. -/
inductive Built : Grammar → Prop
  | build {draft : Draft} {g : Grammar} (parent : ∀ p, draft.parent = some p → Built p)
      (imports : ∀ i ∈ draft.imports, Built i) (ok : draft.build = .ok g) : Built g

end Grammar

/-- A computation in two parts has a result if the first has one and the second has one from it. -/
theorem bind_eq_ok {α β ε : Type} {m : Except ε α} {k : α → Except ε β} {b : β}
    (h : m >>= k = .ok b) : ∃ a, m = .ok a ∧ k a = .ok b := by
  cases m with
  | error e => cases h
  | ok a => exact ⟨a, rfl, h⟩

/-- **What a draft has passed** that was built. -/
theorem Draft.build_passed {draft : Draft} {g : Grammar} (h : draft.build = .ok g) :
    draft.checkAncestry = .ok () ∧ checkDistinct draft.name [] draft.rules = .ok () ∧
      draft.freeze.checkRules = .ok () ∧ g = draft.freeze := by
  obtain ⟨_, ha, h⟩ := bind_eq_ok h
  obtain ⟨_, hd, h⟩ := bind_eq_ok h
  obtain ⟨_, hc, h⟩ := bind_eq_ok h
  cases h
  exact ⟨ha, hd, hc, rfl⟩

/-- What a draft builds is its frozen grammar, and all applications in it were checked. -/
theorem Draft.build_eq_ok {draft : Draft} {g : Grammar} (h : draft.build = .ok g) :
    g = draft.freeze ∧ g.checkRules = .ok () := by
  obtain ⟨-, -, hc, rfl⟩ := Draft.build_passed h
  exact ⟨rfl, hc⟩

/-- A roster holds nothing that was not put in. -/
theorem Roster.mem_of_mem_ofList {α : Type} {key : α → String} {x : α} {entries : List α}
    (h : x ∈ ofList key entries) : x ∈ entries := by
  -- inserting may replace an entry of the same key, but adds nothing besides the new one
  have hfold : ∀ entries roster : List α,
      x ∈ entries.foldl (fun roster a => insert key a roster) roster →
        x ∈ roster ∨ x ∈ entries := by
    intro entries
    induction entries with
    | nil => exact fun roster h => .inl h
    | cons a rest ih =>
      intro roster h
      rcases ih _ h with h | h
      · exact (mem_of_mem_insert h).elim (fun e => .inr (e ▸ .head _)) .inl
      · exact .inr (.tail _ h)
  exact (hfold entries [] h).resolve_left List.not_mem_nil

/-- A check of all items of a list finds nothing at any of them. -/
theorem forM_eq_ok {α ε : Type} {check : α → Except ε Unit} :
    ∀ {xs : List α}, xs.forM check = .ok () → ∀ x ∈ xs, check x = .ok ()
  | y :: ys, h, x, hx => by
    have hstep : (check y >>= fun _ => ys.forM check) = .ok () := h
    cases hy : check y with
    | error e => rw [hy] at hstep; cases hstep
    | ok _ =>
      rw [hy] at hstep
      rcases List.mem_cons.1 hx with rfl | hx
      · exact hy
      · exact forM_eq_ok hstep x hx

namespace Grammar.Built

variable {g o p i : Grammar} {r : Rule} {e : Expr} {name : String}

/-- A draft that can be built gives a built grammar. -/
theorem freeze {draft : Draft} (parent : ∀ p, draft.parent = some p → Built p)
    (imports : ∀ i ∈ draft.imports, Built i) (ok : draft.build.isOk = true) :
    Built draft.freeze := by
  cases hb : draft.build with
  | error c => rw [hb] at ok; cases ok
  | ok g =>
    obtain ⟨rfl, -⟩ := Draft.build_eq_ok hb
    exact .build parent imports hb

theorem parent_built (h : Built g) (hp : g.parent = some p) : Built p := by
  obtain ⟨hparent, -, ok⟩ := h
  obtain ⟨rfl, -⟩ := Draft.build_eq_ok ok
  exact hparent p hp

theorem imports_built (h : Built g) (hi : i ∈ g.imports) : Built i := by
  obtain ⟨-, himports, ok⟩ := h
  obtain ⟨rfl, -⟩ := Draft.build_eq_ok ok
  exact himports i (Roster.mem_of_mem_ofList hi)

/-- **What the check has found**: every application in a rule of a built grammar can be carried out,
as that grammar itself sees it. -/
theorem checked (h : Built g) (hr : r ∈ g.rules) (he : e ∈ r.body.subexprs) :
    g.checkApplication e = .ok () := by
  obtain ⟨-, -, ok⟩ := h
  exact forM_eq_ok (Draft.build_eq_ok ok).2 e (List.mem_flatMap.2 ⟨r, hr, he⟩)

/-- The ancestors of a built grammar were built. -/
theorem of_descends (h : Descends g o) (hg : Built g) : Built o := by
  induction h with
  | self => exact hg
  | heir hp _ ih => exact ih (hg.parent_built hp)

/-- What a built grammar imports, itself or through an ancestor, was built. -/
theorem of_import? (name : String) : ∀ (g : Grammar) {i : Grammar}, Built g →
    g.import? name = some i → Built i
  | ⟨n, parent, is, rules, stamp⟩, i, hg, hi => by
    rw [import?_eq] at hi
    split at hi
    next j hj =>
      cases hi
      exact hg.imports_built (List.mem_of_find?_eq_some hj)
    next =>
      cases parent with
      | none => cases hi
      | some p => exact of_import? name p (hg.parent_built rfl) hi
termination_by structural g => g

end Grammar.Built

end Packrat
