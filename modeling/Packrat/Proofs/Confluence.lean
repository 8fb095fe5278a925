import Packrat.Proofs.Stamps

/-!
# Declarations in any order

A declaration is built from the entries that it names and from nothing else that is there. So two
declarations that do not need one another may change places, and from any order in which each comes
after what it needs one gets to any other in such steps. However declarations are loaded, the same
grammars are there in the end, up to their stamps.

* `Roster.insert_comm`: entries of two names may be put in either way round.
* `Library.Builds`: declarations built one after another.
* `Library.Builds.swap`: neighbours that do not need one another change places.
* `Library.Builds.perm`: any two orders lead to alike libraries.
* `Library.loadEach`: loading one declaration at a time.
* `Library.loadDecls_confluent`: a batch, a batch in another order and one at a time agree.
-/

namespace Packrat

/-! ### Rosters -/

namespace Roster

variable {α : Type} {key : α → String}

/-- Entries of two names may be put in either way round. -/
theorem insert_comm {a b : α} (h : key a ≠ key b) (entries : List α) :
    insert key a (insert key b entries) = insert key b (insert key a entries) := by
  -- it is enough to see this for the smaller of the two first
  have hlt {a b : α} (hab : key a < key b) (entries : List α) :
      insert key a (insert key b entries) = insert key b (insert key a entries) := by
    have hba : ¬ key b < key a := String.lt_asymm hab
    have hne : key b ≠ key a := Ne.symm (Std.ne_of_lt hab)
    induction entries with
    | nil => simp [insert, hab, hba, hne]
    | cons c cs ih =>
      by_cases hbc : key b < key c
      · have hac : key a < key c := String.lt_trans hab hbc
        simp [insert, hab, hba, hne, hbc, hac]
      · by_cases hb : key b = key c
        · have hac : key a < key c := hb ▸ hab
          simp [insert, hb, hac, hb ▸ hba, hb ▸ hne]
        · by_cases hac : key a < key c
          · simp [insert, hba, hne, hbc, hb, hac]
          · by_cases ha : key a = key c
            · simp [insert, hbc, hb, ha]
            · simp [insert, hbc, hb, hac, ha, ih]
  by_cases hab : key a < key b
  · exact hlt hab entries
  · have hba : key b < key a := Std.lt_of_le_of_ne (String.not_lt.1 hab) h.symm
    exact (hlt hba entries).symm

/-- The roster of entries with distinct names does not depend on their order. -/
theorem ofList_perm {entries entries' : List α} (hp : entries'.Perm entries)
    (hn : (entries.map key).Nodup) : ofList key entries' = ofList key entries := by
  refine hp.foldl_eq' (fun a ha b hb roster => ?_) []
  by_cases h : key b = key a
  · rw [List.inj_on_of_nodup_map hn (hp.subset hb) (hp.subset ha) h]
  · exact insert_comm h roster

end Roster

namespace Library

variable {lib lib' lib₁ : Library} {d b : Declaration} {g : Grammar}
  {decls decls' before rest : List Declaration} {gs : List Grammar}

theorem Alike.refl (lib : Library) : lib.Alike lib := ⟨fun _ _ => rfl, rfl⟩

theorem Alike.trans {lib'' : Library} (h : lib.Alike lib') (h' : lib'.Alike lib'') :
    lib.Alike lib'' :=
  ⟨fun origin source => (h.parse origin source).trans (h'.parse origin source),
    h.grammars.trans h'.grammars⟩

theorem Alike.names (h : lib.Alike lib') : lib.names = lib'.names := by
  have hnames := congrArg (List.map Grammar.name) h.grammars
  simp only [List.map_map, Function.comp_def, Grammar.bare_name] at hnames
  exact hnames

/-! ### One after another -/

/-- **Declarations built one after another**, each from what is there when its turn comes. -/
inductive Builds : Library → List Declaration → List Grammar → Library → Prop
  | nil (lib : Library) : Builds lib [] [] lib
  | cons {lib lib' : Library} {d : Declaration} {decls : List Declaration} {g : Grammar}
    {gs : List Grammar} (hd : lib.build d = .ok g) (h : Builds (lib.add g) decls gs lib') :
    Builds lib (d :: decls) (g :: gs) lib'

theorem build_name (h : lib.build d = .ok g) : g.name = d.name := by
  obtain ⟨parent, -, h⟩ := bind_eq_ok h
  obtain ⟨imports, -, h⟩ := bind_eq_ok h
  rw [(Draft.build_eq_ok h).1]
  rfl

/-- What one library builds, another builds that has the same under the names that count. -/
theorem build_transfer (lib₁ : Library) (h : lib.build d = .ok g)
    (hd : ∀ name ∈ d.dependencies,
      (lib.get? name).map Grammar.bare = (lib₁.get? name).map Grammar.bare) :
    ∃ g₁, lib₁.build d = .ok g₁ ∧ g₁.bare = g.bare := by
  have hbuild := build_congr hd
  rw [h] at hbuild
  cases h₁ : lib₁.build d with
  | error c => rw [h₁] at hbuild; cases hbuild
  | ok g₁ =>
    rw [h₁] at hbuild
    exact ⟨g₁, rfl, (Except.ok.inj hbuild).symm⟩

/-- Alike libraries build the same declarations, and end alike. -/
theorem Builds.alike (h : Builds lib decls gs lib') (ha : lib.Alike lib₁) :
    ∃ gs₁ lib₁', Builds lib₁ decls gs₁ lib₁' ∧ lib'.Alike lib₁' := by
  induction h generalizing lib₁ with
  | nil lib => exact ⟨[], lib₁, .nil lib₁, ha⟩
  | cons hd _ ih =>
    obtain ⟨g₁, hd₁, hg⟩ := build_transfer lib₁ hd fun name _ => ha.get? name
    obtain ⟨gs₁, lib₁', h₁, ha'⟩ := ih (ha.add hg.symm)
    exact ⟨g₁ :: gs₁, lib₁', .cons hd₁ h₁, ha'⟩

/-- **Neighbours change places** if they do not need one another. -/
theorem Builds.swap (h : Builds lib (b :: d :: rest) gs lib') (hne : b.name ≠ d.name)
    (hdb : b.name ∉ d.dependencies) (hbd : d.name ∉ b.dependencies) :
    ∃ gs₁ lib₁, Builds lib (d :: b :: rest) gs₁ lib₁ ∧ lib'.Alike lib₁ := by
  obtain _ | ⟨hb, _ | ⟨hd, hrest⟩⟩ := h
  rename_i gb gd gs
  have hgb := build_name hb
  -- neither is there when the other is built, which makes no difference to it
  obtain ⟨gd₁, hd₁, hgd₁⟩ := build_transfer lib hd fun name hn => by
    rw [get?_add, if_neg]
    rintro rfl
    exact hdb (hgb ▸ hn)
  have hgd₁' := build_name hd₁
  obtain ⟨gb₁, hb₁, hgb₁⟩ := build_transfer (lib.add gd₁) hb fun name hn => by
    rw [get?_add, if_neg]
    rintro rfl
    exact hbd (hgd₁' ▸ hn)
  have hcomm : (lib.add gd₁).add gb₁ = (lib.add gb₁).add gd₁ := by
    have hkey : gb₁.name ≠ gd₁.name := by rwa [build_name hb₁, hgd₁']
    exact congrArg (fun grammars => { lib with grammars }) (Roster.insert_comm hkey lib.grammars)
  have ha : ((lib.add gb).add gd).Alike ((lib.add gd₁).add gb₁) := by
    rw [hcomm]
    exact ((Alike.refl lib).add hgb₁.symm).add hgd₁.symm
  obtain ⟨gs₁, lib₁, hrest₁, ha₁⟩ := hrest.alike ha
  exact ⟨gd₁ :: gb₁ :: gs₁, lib₁, .cons hd₁ (.cons hb₁ hrest₁), ha₁⟩

/-- A declaration comes first if nothing before it needs it, nor is needed by it. -/
theorem Builds.front (h : Builds lib (before ++ d :: rest) gs lib')
    (hb : ∀ b ∈ before, b.name ≠ d.name ∧ b.name ∉ d.dependencies ∧ d.name ∉ b.dependencies) :
    ∃ gs₁ lib₁, Builds lib (d :: (before ++ rest)) gs₁ lib₁ ∧ lib'.Alike lib₁ := by
  induction before generalizing lib gs with
  | nil => exact ⟨gs, lib', h, .refl lib'⟩
  | cons b before ih =>
    obtain _ | ⟨hbuilt, h⟩ := h
    obtain ⟨gs₁, lib₁, h₁, ha₁⟩ := ih h fun c hc => hb c (.tail _ hc)
    obtain ⟨hne, hdb, hbd⟩ := hb b (.head _)
    obtain ⟨gs₂, lib₂, h₂, ha₂⟩ := (Builds.cons hbuilt h₁).swap hne hdb hbd
    exact ⟨gs₂, lib₂, h₂, ha₁.trans ha₂⟩

/-- No declaration needs a later one. -/
def LooksBack (decls : List Declaration) : Prop :=
  decls.Pairwise fun a b => b.name ∉ a.dependencies

instance (decls : List Declaration) : Decidable (LooksBack decls) :=
  inferInstanceAs (Decidable (decls.Pairwise fun a b => b.name ∉ a.dependencies))

/-- **Any two orders lead to alike libraries**, if no declaration needs a later one in either. -/
theorem Builds.perm (h : Builds lib decls gs lib') (hp : decls'.Perm decls)
    (hn : (decls.map Declaration.name).Nodup) (ho : LooksBack decls) (ho' : LooksBack decls') :
    ∃ gs₁ lib₁, Builds lib decls' gs₁ lib₁ ∧ lib'.Alike lib₁ := by
  -- the first declaration of the new order is brought to the front of the old one
  induction decls' generalizing lib decls gs lib' with
  | nil =>
    obtain rfl := hp.nil_eq
    exact ⟨gs, lib', h, .refl lib'⟩
  | cons d decls' ih =>
    obtain ⟨before, after, rfl⟩ := List.append_of_mem (hp.subset (.head _))
    have hrest : decls'.Perm (before ++ after) := (hp.trans List.perm_middle).cons_inv
    have hnames : ((d :: (before ++ after)).map Declaration.name).Nodup :=
      (List.perm_middle.map Declaration.name).nodup_iff.1 hn
    obtain ⟨hd, hn'⟩ := List.nodup_cons.1 hnames
    obtain ⟨hback, ho'⟩ := List.pairwise_cons.1 ho'
    have hfree : ∀ b ∈ before,
        b.name ≠ d.name ∧ b.name ∉ d.dependencies ∧ d.name ∉ b.dependencies := by
      intro b hb
      have hin : b ∈ before ++ after := List.mem_append_left _ hb
      refine ⟨fun he => hd (he ▸ List.mem_map_of_mem hin), hback b (hrest.symm.subset hin), ?_⟩
      exact (List.pairwise_append.1 ho).2.2 b hb d (.head _)
    obtain ⟨gs₁, lib₁, h₁, ha₁⟩ := h.front hfree
    obtain _ | ⟨hbuilt, h₁⟩ := h₁
    have hsub : (before ++ after).Sublist (before ++ d :: after) :=
      (List.sublist_cons_self d after).append_left before
    obtain ⟨gs₂, lib₂, h₂, ha₂⟩ := ih h₁ hrest hn' (ho.sublist hsub) ho'
    exact ⟨_, lib₂, .cons hbuilt h₂, ha₁.trans ha₂⟩

/-- Grammars with names of their own are there in the end. -/
theorem Builds.entries (h : Builds lib decls gs lib') (hn : (decls.map Declaration.name).Nodup) :
    List.Forall₂ (fun d g => lib'.get? d.name = some g) decls gs ∧
      ∀ name, name ∉ decls.map Declaration.name → lib'.get? name = lib.get? name := by
  induction h with
  | nil lib => exact ⟨.nil, fun _ _ => rfl⟩
  | @cons lib lib' d decls g gs hd _ ih =>
    obtain ⟨hnot, hn⟩ := List.nodup_cons.1 hn
    obtain ⟨hall, hold⟩ := ih hn
    have hg := build_name hd
    refine ⟨.cons ?_ hall, fun name hname => ?_⟩
    · rw [hold d.name hnot, get?_add, if_pos hg]
    · rw [List.map_cons, List.mem_cons, not_or] at hname
      rw [hold name hname.2, get?_add, if_neg fun he => hname.1 (he.symm.trans hg)]

/-! ### Batches and single declarations -/

/-- Loads declarations one at a time, up to the first that fails. -/
def loadEach : List Declaration → Library → Library × Except Error (List Grammar)
  | [], lib => (lib, .ok [])
  | d :: rest, lib =>
    match lib.loadDecls [d] with
    | (lib', .error e) => (lib', .error e)
    | (lib', .ok gs) =>
      let (lib'', answer) := loadEach rest lib'
      (lib'', answer.map fun gs' => gs ++ gs')

/-- A batch that does not fail has been built in its order. -/
theorem builds_of_buildInOrder {order : List String} {built answer : List Grammar}
    (h : buildInOrder decls order built lib = (lib', .ok answer)) :
    ∃ gs, answer = built.reverse ++ gs ∧ Builds lib (queue decls order) gs lib' := by
  induction order generalizing built lib with
  | nil =>
    cases h
    exact ⟨[], by simp, .nil _⟩
  | cons name rest ih =>
    unfold buildInOrder at h
    cases hd : Roster.get? Declaration.name name decls with
    | none =>
      simp only [hd] at h
      have hskip : queue decls (name :: rest) = queue decls rest := by simp [queue, hd]
      rw [hskip]
      exact ih h
    | some d =>
      simp only [hd] at h
      rw [queue_cons hd]
      cases hb : lib.build d with
      | error c => simp only [hb] at h; cases h
      | ok g =>
        simp only [hb] at h
        obtain ⟨gs, rfl, hgs⟩ := ih h
        exact ⟨g :: gs, by simp, .cons hb hgs⟩

/-- A declaration that does not need itself is in order alone. -/
theorem dependencyOrder_singleton (h : d.name ∉ d.dependencies) :
    dependencyOrder [d] = .ok [d.name] := by
  have honly {n : String} {e : Declaration} (he : Declares [d] n e) : e = d ∧ n = d.name := by
    have hed := List.mem_singleton.1 (Roster.mem_of_get? he)
    exact ⟨hed, hed ▸ (Roster.get?_key he).symm⟩
  cases ho : dependencyOrder [d] with
  | error c =>
    obtain ⟨chain, -, hcircle⟩ := dependencyOrder_circle ho
    obtain ⟨n, hn⟩ := hcircle.transGen
    obtain ⟨m, ⟨x, y, hx, hm, hy⟩, -⟩ := Relation.TransGen.head'_iff.1 hn
    obtain ⟨rfl, -⟩ := honly hx
    exact absurd ((honly hy).2 ▸ hm) h
  | ok order =>
    have hall := dependencyOrder_arranges ho
    have hperm : order.Perm [d.name] := by
      refine (List.perm_ext_iff_of_nodup hall.nodup (List.nodup_singleton _)).2 fun n => ?_
      rw [hall.complete, List.mem_singleton]
      exact ⟨fun ⟨e, he⟩ => (honly he).2, fun hn => ⟨d, by simp [Declares, Roster.get?, hn]⟩⟩
    rw [List.perm_singleton.1 hperm]

/-- **Loading one declaration** builds it and adds what is built. -/
theorem loadDecls_singleton (hnew : lib.has d.name = false) (hself : d.name ∉ d.dependencies)
    (hd : lib.build d = .ok g) : lib.loadDecls [d] = (lib.add g, .ok [g]) := by
  have hp : lib.pending [d] = .ok [d] := by
    simp [pending, hnew, Roster.has, Roster.get?, Roster.insert, bind, Except.bind, pure,
      Except.pure]
  simp [loadDecls, hp, dependencyOrder_singleton hself, buildInOrder, Roster.get?, hd, bind,
    Except.bind, pure, Except.pure]

theorem Fresh.perm (h : lib.Fresh decls) (hp : decls'.Perm decls) : lib.Fresh decls' :=
  ⟨(hp.map Declaration.name).nodup_iff.2 h.distinct, fun d hd => h.new d (hp.subset hd)⟩

/-- What is built one after another is loaded one at a time. -/
theorem Builds.loadEach (h : Builds lib decls gs lib') (hf : lib.Fresh decls)
    (hself : ∀ d ∈ decls, d.name ∉ d.dependencies) : loadEach decls lib = (lib', .ok gs) := by
  induction h with
  | nil lib => rfl
  | @cons lib lib' d decls g gs hd _ ih =>
    obtain ⟨hnot, hn⟩ := List.nodup_cons.1 hf.distinct
    have hfresh : (lib.add g).Fresh decls := by
      refine ⟨hn, fun e he => ?_⟩
      have hne : g.name ≠ e.name := fun h =>
        hnot ((build_name hd).symm.trans h ▸ List.mem_map_of_mem he)
      rw [has_add, hf.new e (.tail _ he)]
      simp [hne]
    have hone := loadDecls_singleton (hf.new d (.head _)) (hself d (.head _)) hd
    simp only [Library.loadEach, hone, ih hfresh fun e he => hself e (.tail _ he)]
    rfl

/-- Declarations are in order if none needs itself or a later one. -/
theorem inOrder_iff (hn : decls.Nodup) :
    InOrder decls ↔ LooksBack decls ∧ ∀ d ∈ decls, d.name ∉ d.dependencies := by
  constructor
  · intro h
    refine ⟨?_, fun d hd hself => ?_⟩
    · have hback : ∀ rest before, decls = before ++ rest → LooksBack rest := by
        intro rest
        induction rest with
        | nil => exact fun _ _ => .nil
        | cons a rest ih =>
          rintro before rfl
          refine .cons (fun b hb hdep => ?_) (ih (before ++ [a]) (by simp))
          have hin := h before a rest rfl b (by simp [hb]) hdep
          exact (List.nodup_append.1 hn).2.2 b hin b (.tail _ hb) rfl
      exact hback decls [] rfl
    · obtain ⟨before, after, rfl⟩ := List.append_of_mem hd
      have hin := h before d after rfl d hd hself
      exact (List.nodup_append.1 hn).2.2 d hin d (.head _) rfl
  · rintro ⟨hback, hself⟩ before d after rfl e he hdep
    rcases List.mem_append.1 he with he | he
    · exact he
    · rcases List.mem_cons.1 he with rfl | he
      · exact absurd hdep (hself e (by simp))
      · exact absurd hdep (List.rel_of_pairwise_cons (List.pairwise_append.1 hback).2.1 he)

/-- **However declarations are loaded, the same grammars are there.** If a batch is loaded without
an error, so it is in any other order, with the same answer; and the declarations are loaded one at
a time in any order in which each comes after those that it needs. That leads to the same library
and the same grammars up to their stamps. -/
theorem loadDecls_confluent (lib lib' : Library) (decls decls' : List Declaration)
    (gs : List Grammar) (h : lib.loadDecls decls = (lib', .ok gs)) (hp : decls'.Perm decls) :
    lib.loadDecls decls' = (lib', .ok gs) ∧
      (InOrder decls' → ∃ lib₁ gs₁, loadEach decls' lib = (lib₁, .ok gs₁) ∧
        lib'.Alike lib₁ ∧ lib'.names = lib₁.names ∧
        List.Forall₂ (fun d g => (lib'.get? d.name).map Grammar.bare = some g.bare) decls' gs₁) := by
  rcases lib.pending_eq decls with ⟨hf, hpending⟩ | ⟨d, -, hpending⟩
  · have hf' := hf.perm hp
    constructor
    · -- the same declarations are on the roster
      have hpending' : lib.pending decls' = .ok (Roster.ofList Declaration.name decls) := by
        rcases lib.pending_eq decls' with ⟨-, hp'⟩ | ⟨d, hd, -⟩
        · rw [hp', Roster.ofList_perm hp hf.distinct]
        · exact absurd hf' hd.not_fresh
      unfold loadDecls at h ⊢
      rwa [hpending', ← hpending]
    · intro hin
      cases ho : dependencyOrder (Roster.ofList Declaration.name decls) with
      | error c =>
        simp only [loadDecls, hpending, ho, bind, Except.bind] at h
        cases h
      | ok order =>
        simp only [loadDecls, hpending, ho, bind, Except.bind, pure, Except.pure] at h
        obtain ⟨gs, -, hbuilds⟩ := builds_of_buildInOrder h
        obtain ⟨hqueue, horder⟩ := hf.queue ho
        have hfq := hf.perm hqueue
        obtain ⟨hback, -⟩ := (inOrder_iff (.of_map _ hfq.distinct)).1 horder
        obtain ⟨hback', hself⟩ := (inOrder_iff (.of_map _ hf'.distinct)).1 hin
        obtain ⟨gs₁, lib₁, hbuilds₁, ha⟩ :=
          hbuilds.perm (hp.trans hqueue.symm) hfq.distinct hback hback'
        refine ⟨lib₁, gs₁, hbuilds₁.loadEach hf' hself, ha, ha.names, ?_⟩
        refine (hbuilds₁.entries hf'.distinct).1.imp fun d g hg => ?_
        rw [ha.get?, hg]
        rfl
  · simp only [loadDecls, hpending, bind, Except.bind] at h
    cases h

/-- Four declarations, the last of which all others need in the end. -/
def tower : List Declaration :=
  [{ name := "Top", parent := some "Left", imports := ["Right"],
      rules := [{ name := "start", body := .sequence [.app "letter", .foreign "Right" "digit" []] }] },
    { name := "Right", imports := ["Base"],
      rules := [{ name := "digit", body := .foreign "Base" "any" [] }] },
    { name := "Left", parent := some "Base", rules := [{ name := "letter", body := .app "any" }] },
    { name := "Base", rules := [{ name := "any", body := .range 'a' 'z' }] }]

/-- The tower is loaded from the top as from the bottom, at once and one by one. -/
theorem loadDecls_confluent_tower :
    ∃ lib' gs, ({} : Library).loadDecls tower = (lib', .ok gs) ∧ InOrder tower.reverse ∧
      lib'.names = ["Base", "Left", "Right", "Top"] ∧
      ({} : Library).loadDecls tower.reverse = (lib', .ok gs) ∧
      ∃ lib₁ gs₁, loadEach tower.reverse {} = (lib₁, .ok gs₁) ∧ lib'.Alike lib₁ ∧
        lib'.names = lib₁.names ∧
        List.Forall₂ (fun d g => (lib'.get? d.name).map Grammar.bare = some g.bare)
          tower.reverse gs₁ := by
  have hin : InOrder tower.reverse := (inOrder_iff (by decide)).2 (by decide)
  have hnames : (({} : Library).loadDecls tower).1.names = ["Base", "Left", "Right", "Top"] := by
    decide +kernel
  rcases h : ({} : Library).loadDecls tower with ⟨lib', e | gs⟩
  · have hok : (({} : Library).loadDecls tower).2.isOk = true := by decide +kernel
    rw [h] at hok
    cases hok
  · rw [h] at hnames
    obtain ⟨hbatch, hone⟩ := loadDecls_confluent {} lib' tower tower.reverse gs h tower.reverse_perm
    exact ⟨lib', gs, rfl, hin, hnames, hbatch, hone hin⟩

end Library

end Packrat
