import Mathlib.Data.List.Chain
import Mathlib.Data.List.Induction
import Mathlib.Data.List.Nodup
import Mathlib.Data.List.Perm.Subperm
import Mathlib.Logic.Relation
import Packrat.Library.Order
import Packrat.Proofs.Lineage

/-!
# Rosters and orders

What a roster gives for a name, and what the dependency order of a roster of declarations is worth:
it names each declaration once, after those that it needs. Where there is no such order, there is a
circle of declarations that need one another, and one such circle is what is reported.

* `Roster.get?_insert`: insertion sets the entry of one name.
* `Roster.Ordered.get?_self`: in an ordered roster every entry is the one of its own name.
* `Library.visit_ok`: a visit keeps an order sorted.
* `Library.visit_circle`: a visit fails only by coming back to a name that is being visited.
* `Library.visit_fuel`: no visit is cut short.
* `Library.dependencyOrder_sorts`: declarations are put in order exactly if they do not need one
  another in a circle.
-/

namespace Packrat

/-! ### Rosters by name -/

namespace Roster

variable {α : Type} {key : α → String} {a : α} {name : String} {entries : List α}

/-- Insertion sets the entry of one name and leaves all others. -/
theorem get?_insert (a : α) (name : String) (entries : List α) :
    get? key name (insert key a entries) = if key a = name then some a else get? key name entries := by
  induction entries with
  | nil => by_cases h : key a = name <;> simp [insert, get?, h]
  | cons b bs ih =>
    simp only [insert]
    split
    · by_cases h : key a = name <;> simp [get?, h]
    · split
      next he => by_cases h : key a = name <;> simp [get?, he ▸ h, h]
      next hne =>
        -- the entries that are passed have other names
        by_cases hb : key b = name
        · have hab : key a ≠ name := fun h => hne (h.trans hb.symm)
          simp [get?, hb, hab]
        · simp only [get?, List.find?_cons, hb, decide_false] at ih ⊢
          exact ih

theorem has_insert (a : α) (name : String) (entries : List α) :
    has key name (insert key a entries) = (decide (key a = name) || has key name entries) := by
  unfold has
  rw [get?_insert]
  by_cases h : key a = name <;> simp [h]

theorem get?_key (h : get? key name entries = some a) : key a = name := by
  simpa using List.find?_some h

theorem get?_of_mem (ha : a ∈ entries) : ∃ b, get? key (key a) entries = some b :=
  Option.isSome_iff_exists.1 (List.find?_isSome.2 ⟨a, ha, by simp⟩)

theorem mem_of_get? (h : get? key name entries = some a) : a ∈ entries := List.mem_of_find?_eq_some h

/-- In an ordered roster every entry is the one of its own name. -/
theorem Ordered.get?_self (h : Ordered key entries) (ha : a ∈ entries) :
    get? key (key a) entries = some a := by
  induction entries with
  | nil => cases ha
  | cons b bs ih =>
    obtain ⟨hb, hbs⟩ := List.pairwise_cons.1 h
    rcases List.mem_cons.1 ha with rfl | ha
    · simp [get?]
    · have hne : key b ≠ key a := Std.ne_of_lt (hb a ha)
      simp only [get?, List.find?_cons, hne, decide_false]
      exact ih hbs ha

/-- What was put into a roster is found there, if nothing else of its name was put in. -/
theorem get?_foldl_insert {x : α} {roster : List α} (h : ∀ y ∈ entries, key y = key x → y = x)
    (hx : x ∈ entries ∨ get? key (key x) roster = some x) :
    get? key (key x) (entries.foldl (fun roster a => insert key a roster) roster) = some x := by
  induction entries generalizing roster with
  | nil => exact hx.resolve_left List.not_mem_nil
  | cons a rest ih =>
    refine ih (fun y hy => h y (.tail _ hy)) ?_
    rw [get?_insert]
    by_cases ha : key a = key x
    · rw [if_pos ha, h a (.head _) ha]
      exact .inr rfl
    · rw [if_neg ha]
      exact hx.imp_left fun hx => (List.mem_cons.1 hx).resolve_left fun he => ha (by rw [he])

theorem get?_ofList {x : α} (h : ∀ y ∈ entries, key y = key x → y = x) (hx : x ∈ entries) :
    get? key (key x) (ofList key entries) = some x :=
  get?_foldl_insert h (.inl hx)

theorem ofList_snoc (entries : List α) (a : α) :
    ofList key (entries ++ [a]) = insert key a (ofList key entries) := by
  rw [ofList, List.foldl_append]
  rfl

theorem mem_ofList {x : α} (h : ∀ y ∈ entries, key y = key x → y = x) :
    x ∈ ofList key entries ↔ x ∈ entries :=
  ⟨mem_of_mem_ofList, fun hx => mem_of_get? (get?_ofList h hx)⟩

end Roster

/-! ### The order of declarations -/

/-- What holds at the start of a fold and is kept by each step holds at its end, of all the items
that were taken. -/
theorem foldlM_invariant {α β ε : Type} {step : β → α → Except ε β} (inv : List α → β → Prop)
    (hstep : ∀ done b a b', inv done b → step b a = .ok b' → inv (done ++ [a]) b') :
    ∀ (l done : List α) {b b' : β}, inv done b → l.foldlM step b = .ok b' → inv (done ++ l) b'
  | [], done, b, b', h, he => by cases he; rwa [List.append_nil]
  | a :: l, done, b, b', h, he => by
    rw [List.foldlM_cons] at he
    obtain ⟨c, ha, he⟩ := bind_eq_ok he
    have hrest := foldlM_invariant inv hstep l (done ++ [a]) (hstep done b a c h ha) he
    rwa [List.append_assoc] at hrest

/-- A fold fails only as one of its steps does. -/
theorem foldlM_error {α β ε : Type} {step : β → α → Except ε β} (bad : ε → Prop) :
    ∀ {l : List α} {b : β} {e : ε}, (∀ b, ∀ a ∈ l, ∀ {e}, step b a = .error e → bad e) →
      l.foldlM step b = .error e → bad e
  | [], b, e, _, he => by cases he
  | a :: l, b, e, hstep, he => by
    rw [List.foldlM_cons] at he
    cases ha : step b a with
    | error e' => rw [ha] at he; cases he; exact hstep b a (.head _) ha
    | ok c =>
      rw [ha] at he
      exact foldlM_error bad (fun b x hx => hstep b x (.tail _ hx)) he

namespace Library

variable {decls : List Declaration}

/-- The declaration of a name. -/
def Declares (decls : List Declaration) (name : String) (d : Declaration) : Prop :=
  Roster.get? Declaration.name name decls = some d

/-- What is kept of an order while the names on `stack` are visited: no name is in it twice or is on
the stack, all of them are declared, and each comes after what it depends on. -/
structure Sorting (decls : List Declaration) (stack order : List String) : Prop where
  nodup : order.Nodup
  apart : ∀ n ∈ stack, n ∉ order
  declared : ∀ n ∈ order, ∃ d, Declares decls n d
  settled : ∀ before n after, order = before ++ n :: after → ∀ d, Declares decls n d →
    ∀ m ∈ d.dependencies, ∀ e, Declares decls m e → m ∈ before

/-- A name goes last if it is not there and what it depends on is. -/
theorem Sorting.snoc {stack order : List String} {name : String} {d : Declaration}
    (h : Sorting decls (stack ++ [name]) order) (hoff : name ∉ stack)
    (hd : Declares decls name d)
    (hdeps : ∀ m ∈ d.dependencies, ∀ e, Declares decls m e → m ∈ order) :
    Sorting decls stack (order ++ [name]) := by
  have hname : name ∉ order := h.apart name (by simp)
  refine ⟨?_, fun n hn => ?_, fun n hn => ?_, fun before n after he x hx m hm e hme => ?_⟩
  · refine List.nodup_append.2 ⟨h.nodup, by simp, fun a ha b hb he => hname ?_⟩
    rwa [← List.mem_singleton.1 hb, ← he]
  · have hne : n ≠ name := fun he => hoff (he ▸ hn)
    simpa [hne] using h.apart n (List.mem_append_left _ hn)
  · rcases List.mem_append.1 hn with hn | hn
    · exact h.declared n hn
    · exact ⟨d, List.mem_singleton.1 hn ▸ hd⟩
  · rcases List.eq_nil_or_concat' after with rfl | ⟨after, l, rfl⟩
    · obtain ⟨rfl, hn⟩ := List.append_inj' he rfl
      cases hn
      cases hd.symm.trans hx
      exact hdeps m hm e hme
    · rw [← List.cons_append, ← List.append_assoc] at he
      exact h.settled before n after (List.append_inj' he rfl).1 x hx m hm e hme

/-- **What is being visited**: declared names, none of them twice. -/
structure Stacked (decls : List Declaration) (stack : List String) : Prop where
  nodup : stack.Nodup
  declared : ∀ n ∈ stack, ∃ d, Declares decls n d

theorem Stacked.nil : Stacked decls [] := ⟨List.nodup_nil, fun _ h => (by cases h)⟩

theorem Stacked.push {stack : List String} {name : String} {d : Declaration}
    (h : Stacked decls stack) (hoff : name ∉ stack) (hd : Declares decls name d) :
    Stacked decls (stack ++ [name]) where
  nodup := by
    rw [← List.concat_eq_append]
    exact h.nodup.concat hoff
  declared n hn := by
    rcases List.mem_append.1 hn with hn | hn
    · exact h.declared n hn
    · exact ⟨d, List.mem_singleton.1 hn ▸ hd⟩

/-- A stack that holds as many names as are declared holds them all. -/
theorem Stacked.full {stack : List String} {name : String} {d : Declaration}
    (h : Stacked decls stack) (hfull : decls.length ≤ stack.length) (hd : Declares decls name d) :
    name ∈ stack := by
  have hsub : stack ⊆ decls.map Declaration.name := by
    intro n hn
    obtain ⟨e, he⟩ := h.declared n hn
    exact List.mem_map.2 ⟨e, Roster.mem_of_get? he, Roster.get?_key he⟩
  have hperm := (h.nodup.subperm hsub).perm_of_length_le (by simpa using hfull)
  exact hperm.mem_iff.2 (List.mem_map.2 ⟨d, Roster.mem_of_get? hd, Roster.get?_key hd⟩)

/-- A visit keeps an order sorted, keeps all that is in it, and leaves the name in it if that is
declared. The stack never holds more names than are declared, so the fuel does not run out. -/
theorem visit_ok {fuel : Nat} {stack order order' : List String} {name : String}
    (hstack : Stacked decls stack) (hfuel : decls.length ≤ fuel + stack.length) (hs : Sorting decls stack order)
    (h : visit decls fuel stack order name = .ok order') :
    Sorting decls stack order' ∧ order ⊆ order' ∧
      ∀ d, Declares decls name d → name ∈ order' := by
  induction fuel generalizing stack order order' name with
  | zero =>
    unfold visit at h
    split at h
    next hin => cases h; exact ⟨hs, List.Subset.refl _, fun _ _ => hin⟩
    next =>
      split at h
      · cases h
      next hoff =>
        cases h
        refine ⟨hs, List.Subset.refl _, fun d hd => absurd ?_ hoff⟩
        exact hstack.full (by simpa using hfuel) hd
  | succ fuel ih =>
    unfold visit at h
    split at h
    next hin => cases h; exact ⟨hs, List.Subset.refl _, fun _ _ => hin⟩
    next hnot =>
      split at h
      · cases h
      next hoff =>
        cases hd : Roster.get? Declaration.name name decls with
        | none =>
          simp only [hd] at h
          cases h
          exact ⟨hs, List.Subset.refl _, fun d hd' => by rw [Declares, hd] at hd'; cases hd'⟩
        | some d =>
          simp only [hd] at h
          obtain ⟨inner, hf, h⟩ := bind_eq_ok h
          cases h
          -- the name is on the stack while what it depends on is visited
          have hstack' : Stacked decls (stack ++ [name]) := hstack.push hoff hd
          have hfuel' : decls.length ≤ fuel + (stack ++ [name]).length := by
            rw [List.length_append, List.length_singleton]
            omega
          have hstart : Sorting decls (stack ++ [name]) order := by
            refine ⟨hs.nodup, fun n hn => ?_, hs.declared, hs.settled⟩
            rcases List.mem_append.1 hn with hn | hn
            · exact hs.apart n hn
            · rwa [List.mem_singleton.1 hn]
          obtain ⟨hin, hsub, hall⟩ := foldlM_invariant
            (fun done b => Sorting decls (stack ++ [name]) b ∧ order ⊆ b ∧
              ∀ m ∈ done, ∀ e, Declares decls m e → m ∈ b)
            (fun done b m b' hb he => by
              obtain ⟨hb', hgrow, hm⟩ := ih hstack' hfuel' hb.1 he
              refine ⟨hb', List.Subset.trans hb.2.1 hgrow, fun n hn e hne => ?_⟩
              rcases List.mem_append.1 hn with hn | hn
              · exact hgrow (hb.2.2 n hn e hne)
              · cases List.mem_singleton.1 hn
                exact hm e hne)
            d.dependencies [] ⟨hstart, List.Subset.refl _, by simp⟩ hf
          rw [List.nil_append] at hall
          exact ⟨hin.snoc hoff hd hall, List.Subset.trans hsub (List.subset_append_left _ _), by simp⟩

/-- **The dependency order** names all declarations, each once and after what it depends on. -/
theorem dependencyOrder_ok {order : List String} (h : dependencyOrder decls = .ok order) :
    Sorting decls [] order ∧ ∀ d ∈ decls, d.name ∈ order := by
  have hstart : Sorting decls [] [] :=
    ⟨List.nodup_nil, fun _ _ => List.not_mem_nil, fun n hn => (by cases hn),
      fun before n after he => (by simp at he)⟩
  obtain ⟨hs, hall⟩ := foldlM_invariant
    (fun done b => Sorting decls [] b ∧ ∀ d ∈ done, ∀ e, Declares decls d.name e → d.name ∈ b)
    (fun done b d b' hb he => by
      obtain ⟨hb', hgrow, hd⟩ := visit_ok .nil (by simp) hb.1 he
      refine ⟨hb', fun x hx e he => ?_⟩
      rcases List.mem_append.1 hx with hx | hx
      · exact hgrow (hb.2 x hx e he)
      · cases List.mem_singleton.1 hx
        exact hd e he)
    decls [] ⟨hstart, by simp⟩ h
  refine ⟨hs, fun d hd => ?_⟩
  obtain ⟨e, he⟩ := Roster.get?_of_mem hd
  exact hall d hd e he

/-! ### Circles -/

/-- One declaration needs another directly, and both are there. -/
def Needs (decls : List Declaration) (n m : String) : Prop :=
  ∃ d e, Declares decls n d ∧ m ∈ d.dependencies ∧ Declares decls m e

/-- **A circle of dependencies**: declared names, each of which needs the next, that end where they
began. -/
structure Circle (decls : List Declaration) (chain : List String) : Prop where
  long : 2 ≤ chain.length
  closed : chain.head? = chain.getLast?
  declared : ∀ n ∈ chain, ∃ d, Declares decls n d
  linked : chain.IsChain (Needs decls)

/-- Some declaration of a circle needs itself in the end. -/
theorem Circle.transGen {chain : List String} (h : Circle decls chain) :
    ∃ n, Relation.TransGen (Needs decls) n n := by
  obtain ⟨hlong, hclosed, -, hlinked⟩ := h
  match chain, hlong with
  | n :: m :: rest, _ =>
    have hlast : (m :: rest).getLast (by simp) = n := by
      rw [List.head?_cons, List.getLast?_cons_cons, List.getLast?_eq_some_getLast (by simp)] at hclosed
      exact (Option.some.inj hclosed).symm
    obtain ⟨hnm, hrest⟩ := List.isChain_cons_cons.1 hlinked
    exact ⟨n, .head' hnm (List.relationReflTransGen_of_exists_isChain_cons rest hrest hlast)⟩

/-- **The way down to a name**: each name on the stack needs the next, and the last of them depends
on the name that is visited now. -/
structure Descent (decls : List Declaration) (stack : List String) (name : String) : Prop
    extends Stacked decls stack where
  linked : stack.IsChain (Needs decls)
  last : ∀ n ∈ stack.getLast?, ∃ d, Declares decls n d ∧ name ∈ d.dependencies

theorem Descent.nil (name : String) : Descent decls [] name :=
  ⟨.nil, .nil, fun _ h => (by cases h)⟩

/-- A declared name joins the stack while what it depends on is visited. -/
theorem Descent.down {stack : List String} {name m : String} {d : Declaration}
    (h : Descent decls stack name) (hoff : name ∉ stack) (hd : Declares decls name d)
    (hm : m ∈ d.dependencies) : Descent decls (stack ++ [name]) m where
  toStacked := h.push hoff hd
  linked := by
    refine h.linked.append (.singleton name) fun n hn k hk => ?_
    obtain ⟨e, he, hin⟩ := h.last n hn
    cases hk
    exact ⟨e, d, he, hin, hd⟩
  last n hn := by
    rw [List.getLast?_concat] at hn
    cases hn
    exact ⟨d, hd, hm⟩

/-- Coming back to a name on the stack closes a circle. -/
theorem Descent.circle {stack : List String} {name : String} (h : Descent decls stack name)
    (hin : name ∈ stack) : Circle decls (cycleOf stack name) := by
  obtain ⟨before, rest, rfl, hbefore⟩ := List.eq_append_cons_of_mem hin
  have hcycle : cycleOf (before ++ name :: rest) name = name :: rest ++ [name] := by
    unfold cycleOf
    rw [List.dropWhile_append_of_pos fun n hn => by
      simpa using fun he : n = name => hbefore (he ▸ hn)]
    simp
  obtain ⟨d, hd⟩ := h.declared name hin
  rw [hcycle]
  refine ⟨by simp, by rw [List.getLast?_concat]; rfl, fun n hn => ?_, ?_⟩
  · rcases List.mem_append.1 hn with hn | hn
    · exact h.declared n (List.mem_append_right _ hn)
    · exact ⟨d, List.mem_singleton.1 hn ▸ hd⟩
  · refine (h.linked.suffix (List.suffix_append _ _)).append (.singleton name) fun n hn k hk => ?_
    have hlast : n ∈ (before ++ name :: rest).getLast? := by
      rw [List.getLast?_append_of_ne_nil _ (by simp)]
      exact hn
    obtain ⟨e, he, hdep⟩ := h.last n hlast
    cases hk
    exact ⟨e, d, he, hdep, hd⟩

/-- **A visit fails only by closing a circle.** -/
theorem visit_circle {fuel : Nat} {stack order : List String} {name : String} {c : Cause}
    (hdown : Descent decls stack name) (h : visit decls fuel stack order name = .error c) :
    ∃ chain, c = .cyclicParent chain ∧ Circle decls chain := by
  induction fuel generalizing stack order name c with
  | zero =>
    unfold visit at h
    split at h
    · cases h
    · split at h
      next hin => cases h; exact ⟨_, rfl, hdown.circle hin⟩
      · cases h
  | succ fuel ih =>
    unfold visit at h
    split at h
    · cases h
    · split at h
      next hin => cases h; exact ⟨_, rfl, hdown.circle hin⟩
      next hoff =>
        cases hd : Roster.get? Declaration.name name decls with
        | none => simp only [hd] at h; cases h
        | some d =>
          simp only [hd] at h
          cases hf : d.dependencies.foldlM (visit decls fuel (stack ++ [name])) order with
          | ok inner => rw [hf] at h; cases h
          | error c' =>
            rw [hf] at h
            cases h
            exact foldlM_error (fun c => ∃ chain, c = .cyclicParent chain ∧ Circle decls chain)
              (fun _ m hm _ => ih (hdown.down hoff hd hm)) hf

/-- **What keeps declarations from being put in order** is a circle among them. -/
theorem dependencyOrder_circle {c : Cause} (h : dependencyOrder decls = .error c) :
    ∃ chain, c = .cyclicParent chain ∧ Circle decls chain :=
  foldlM_error (fun c => ∃ chain, c = .cyclicParent chain ∧ Circle decls chain)
    (fun _ d _ _ => visit_circle (.nil d.name)) h

theorem dependencyOrder_error {c : Cause} (h : dependencyOrder decls = .error c) :
    ∃ chain, c = .cyclicParent chain :=
  let ⟨chain, hc, _⟩ := dependencyOrder_circle h
  ⟨chain, hc⟩

/-! ### No visit is cut short -/

/-- More fuel changes nothing where there is enough for all names that are not being visited. -/
theorem visit_fuel {fuel extra : Nat} {stack order : List String} {name : String}
    (hstack : Stacked decls stack) (hfuel : decls.length ≤ fuel + stack.length) :
    visit decls (fuel + extra) stack order name = visit decls fuel stack order name := by
  induction fuel generalizing stack order name with
  | zero =>
    unfold visit
    split
    · rfl
    · split
      · rfl
      next hoff =>
        -- all declared names are on the stack, so this one is not declared
        have hnone : Roster.get? Declaration.name name decls = none := by
          cases hd : Roster.get? Declaration.name name decls with
          | none => rfl
          | some d => exact absurd (hstack.full (by simpa using hfuel) hd) hoff
        rw [hnone]
        cases extra <;> rfl
  | succ fuel ih =>
    rw [show fuel + 1 + extra = fuel + extra + 1 by omega]
    unfold visit
    split
    · rfl
    · split
      · rfl
      next hoff =>
        cases hd : Roster.get? Declaration.name name decls with
        | none => rfl
        | some d =>
          have hsame : visit decls (fuel + extra) (stack ++ [name]) =
              visit decls fuel (stack ++ [name]) := by
            funext order m
            refine ih (hstack.push hoff hd) ?_
            rw [List.length_append, List.length_singleton]
            omega
          simp only [hsame]

/-! ### What an order is worth -/

/-- **An order of declarations**: it names each of them once, after all those that it needs. -/
structure Arranges (decls : List Declaration) (order : List String) : Prop where
  nodup : order.Nodup
  complete : ∀ n, n ∈ order ↔ ∃ d, Declares decls n d
  after : ∀ before n after, order = before ++ n :: after → ∀ m, Needs decls n m → m ∈ before

/-- What a name needs in the end comes before it. -/
theorem Arranges.transGen {order before after : List String} {n m : String}
    (h : Arranges decls order) (ho : order = before ++ n :: after)
    (hm : Relation.TransGen (Needs decls) n m) : m ∈ before := by
  induction hm with
  | single hnm => exact h.after before n after ho _ hnm
  | @tail k m _ hkm ih =>
    obtain ⟨first, last, rfl⟩ := List.append_of_mem ih
    rw [List.append_assoc] at ho
    exact List.mem_append_left _ (h.after first k _ ho _ hkm)

/-- Declarations that have an order do not need one another in a circle. -/
theorem Arranges.acyclic {order : List String} (h : Arranges decls order) (n : String) :
    ¬ Relation.TransGen (Needs decls) n n := by
  intro hn
  obtain ⟨m, ⟨d, -, hd, -⟩, -⟩ := Relation.TransGen.head'_iff.1 hn
  obtain ⟨before, after, ho⟩ := List.append_of_mem ((h.complete n).2 ⟨d, hd⟩)
  have hin := h.transGen ho hn
  have hnodup := h.nodup
  rw [ho] at hnodup
  exact (List.nodup_append.1 hnodup).2.2 n hin n (.head _) rfl

theorem dependencyOrder_arranges {order : List String} (h : dependencyOrder decls = .ok order) :
    Arranges decls order := by
  obtain ⟨hs, hall⟩ := dependencyOrder_ok h
  refine ⟨hs.nodup, fun n => ⟨hs.declared n, fun ⟨d, hd⟩ => ?_⟩, ?_⟩
  · rw [← Roster.get?_key hd]
    exact hall d (Roster.mem_of_get? hd)
  · rintro before n after ho m ⟨d, e, hd, hm, he⟩
    exact hs.settled before n after ho d hd m hm e he

/-- **Declarations are put in order exactly if they do not need one another in a circle.** The
search is never cut short, however much further it might go. It gives an order of all declarations
if there is no circle among them, and else reports one. Names that are not declared make no
difference, and of declarations with one name the first counts. -/
theorem dependencyOrder_sorts (decls : List Declaration) :
    (∀ extra, decls.foldlM (fun order d => visit decls (decls.length + extra) [] order d.name) [] =
        dependencyOrder decls) ∧
      ((∃ order, dependencyOrder decls = .ok order) ↔
        ∀ n, ¬ Relation.TransGen (Needs decls) n n) ∧
      match dependencyOrder decls with
      | .ok order => Arranges decls order
      | .error c => ∃ chain, c = .cyclicParent chain ∧ Circle decls chain := by
  refine ⟨fun extra => ?_, ?_, ?_⟩
  · have hsame (order : List String) (d : Declaration) :
        visit decls (decls.length + extra) [] order d.name =
          visit decls decls.length [] order d.name :=
      visit_fuel .nil (by simp)
    simp only [hsame]
    rfl
  · constructor
    · rintro ⟨order, ho⟩
      exact (dependencyOrder_arranges ho).acyclic
    · intro hacyclic
      cases ho : dependencyOrder decls with
      | ok order => exact ⟨order, rfl⟩
      | error c =>
        obtain ⟨chain, -, hcircle⟩ := dependencyOrder_circle ho
        obtain ⟨n, hn⟩ := hcircle.transGen
        exact absurd hn (hacyclic n)
  · split
    next order ho => exact dependencyOrder_arranges ho
    next c hc => exact dependencyOrder_circle hc

end Library

end Packrat
