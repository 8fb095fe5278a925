import Packrat.Proofs.Clock

/-!
# The machine and the matcher in lockstep

What it means that the machine does what the matcher does. Under every clock that is large enough it
comes to the same value, or to the same reason to end the run, and to the same state of the frame
that it is in. Whatever else it changed on the way it has put back: the levels around the frame, the
depth, and the start of the running sequence. What it noted on the way is in order.

Names and built-in rules are applied in lockstep if rules are. Here the argument is on the number of
arguments, which gets smaller whenever a name is looked up at run time.

* `Machine.Reaches`: only the state of the frame has changed.
* `Mirrors`: the machine ends as the matcher does.
* `Machine.applyNamed_mirrors`: names are applied in lockstep.
-/

namespace Packrat

/-! ### What the machine keeps to -/

variable {φ : Type}

namespace Configuration

@[simp] theorem state_pos (c : Configuration φ) : c.state.pos = c.level.pos := rfl

theorem levels_ne_nil (c : Configuration φ) : c.levels ≠ [] := by simp [levels]

end Configuration

namespace Machine

@[simp] theorem frame_put (m : Machine φ) (st : State φ) : (m.put st).frame = m.frame := by
  simp [Configuration.frame, Configuration.levels, put, List.filterMap_cons]

theorem levels_push (m : Machine φ) (contents : Input) (tag : Option String) :
    (m.push contents tag).levels = m.levels ++ [{ input := contents, origin := m.level.pos, tag }] := by
  simp [Configuration.levels, push]

/-- The frame of an element that is entered. -/
theorem frame_push (m : Machine φ) (contents : Input) (tag : Option String) :
    (m.push contents tag).frame =
      { input := contents, path := m.frame.location m.level.pos,
        tags := m.frame.tags ++ tag.toList } := by
  have hlen : 1 ≤ m.levels.length := List.length_pos_iff.2 m.levels_ne_nil
  unfold Configuration.frame
  rw [levels_push, List.drop_append_of_le_length hlen, List.filterMap_append]
  cases tag <;> simp [push, Frame.location]

/-- What the machine may enter is what the matcher may enter. -/
theorem enter?_eq (m : Machine φ) :
    m.frame.enter? m.level.pos =
      (m.level.input.enter? m.level.pos).map fun (contents, tag) => (m.push contents tag).frame := by
  rw [Frame.enter?_eq]
  simp only [frame_push]
  rfl

end Machine

variable [Account φ]

/-- **A configuration in order**: the state of the frame is sound, and not too many rules are under
way. -/
structure Configuration.Orderly (limit : Nat) (c : Configuration φ) : Prop where
  sound : c.state.Sound (Books.blank φ) c.frame
  depth : c.depth ≤ limit

/-- A note that the machine may take. -/
def Note.Fine (limit : Nat) : Note φ → Prop
  | visit c => c.Orderly limit
  | round size before after => before < after ∧ after ≤ size
  | growth size before after => before < after ∧ after ≤ size
  | handOn given passed => passed < given

namespace Machine

/-- **The machine has come to a state of its frame**, and all else is as it was. -/
structure Reaches (limit : Nat) (m : Machine φ) (st : State φ) (m' : Machine φ) : Prop where
  now : m'.toConfiguration = (m.put st).toConfiguration
  notes : ∃ new, m'.notes = new ++ m.notes ∧ ∀ n ∈ new, n.Fine limit

namespace Reaches

variable {limit : Nat} {m m' m'' : Machine φ} {s t : State φ} {p : Nat}

theorem put : m.Reaches limit s (m.put s) := ⟨rfl, [], rfl, by simp⟩

theorem stay : m.Reaches limit m.state m := ⟨rfl, [], rfl, by simp⟩

theorem trans (h : m.Reaches limit s m') (h' : m'.Reaches limit t m'') : m.Reaches limit t m'' := by
  obtain ⟨now, new, hnew, hfine⟩ := h
  obtain ⟨now', new', hnew', hfine'⟩ := h'
  refine ⟨?_, new' ++ new, ?_, ?_⟩
  · rw [now']
    simp only [Machine.put, now]
  · rw [hnew', hnew, List.append_assoc]
  · intro n hn
    exact (List.mem_append.1 hn).elim (hfine' n) (hfine n)

theorem note {n : Note φ} (hn : n.Fine limit) : m.Reaches limit m.state (m.note n) :=
  ⟨rfl, [n], rfl, by simpa using hn⟩

theorem moveTo (h : m.Reaches limit s m') : m.Reaches limit (s.moveTo p) (m'.moveTo p) :=
  ⟨by simp only [Machine.moveTo, h.now]; rfl, h.notes⟩

theorem frame (h : m.Reaches limit s m') : m'.frame = m.frame := by rw [h.now, frame_put]

theorem state (h : m.Reaches limit s m') : m'.state = s := by rw [h.now]; rfl

theorem depth (h : m.Reaches limit s m') : m'.depth = m.depth := by rw [h.now]; rfl

theorem memo (h : m.Reaches limit s m') : m'.level.memo = s.memo := by rw [h.now]; rfl

theorem pos (h : m.Reaches limit s m') : m'.level.pos = s.pos := by rw [h.now]; rfl

theorem orderly (h : m.Reaches limit s m') (hm : m.Orderly limit)
    (hs : s.Sound (Books.blank φ) m.frame) : m'.Orderly limit := by
  refine ⟨?_, ?_⟩
  · rw [h.frame, h.state]
    exact hs
  · rw [h.depth]
    exact hm.depth

end Reaches

end Machine

/-! ### Ending alike -/

/-- **The machine ends as the matcher does**: with what `ok` makes of the matcher's result, or for
the same reason with what `stop` admits. -/
def Mirrors {α β : Type} (ok : α → Option Value → β → Prop) (stop : β → Prop)
    (model : Except Halt α) (run : Nat → Option (Verdict × β)) : Prop :=
  match model with
  | .ok a => ∃ v x, Converges run (.ok v, x) ∧ ok a v x
  | .error h => ∃ x, Converges run (.error (.halt h), x) ∧ stop x

namespace Mirrors

variable {α β α' β' : Type} {ok : α → Option Value → β → Prop} {stop : β → Prop}
  {ok' : α' → Option Value → β' → Prop} {stop' : β' → Prop}
  {model : Except Halt α} {run : Nat → Option (Verdict × β)}

theorem bind {k : α → Except Halt α'} {k' : Nat → Verdict × β → Option (Verdict × β')}
    (h : Mirrors ok stop model run)
    (hok : ∀ a v x, ok a v x → Mirrors ok' stop' (k a) fun n => k' n (.ok v, x))
    (hstop : ∀ halt x, stop x →
      Mirrors ok' stop' (.error halt) fun n => k' n (.error (.halt halt), x)) :
    Mirrors ok' stop' (model >>= k) fun n => run n >>= k' n := by
  cases model with
  | error halt =>
    obtain ⟨x, hx, hs⟩ := h
    obtain ⟨y, hy, hs'⟩ := hstop halt x hs
    exact ⟨y, hx.bind hy, hs'⟩
  | ok a =>
    obtain ⟨v, x, hx, hv⟩ := h
    have hk := hok a v x hv
    show Mirrors ok' stop' (k a) _
    cases hka : k a with
    | error halt =>
      rw [hka] at hk
      obtain ⟨y, hy, hs⟩ := hk
      exact ⟨y, hx.bind hy, hs⟩
    | ok a' =>
      rw [hka] at hk
      obtain ⟨w, y, hy, hw⟩ := hk
      exact ⟨w, y, hx.bind hy, hw⟩

theorem mono {ok' : α → Option Value → β → Prop} {stop' : β → Prop}
    (h : Mirrors ok stop model run) (hok : ∀ a v x, ok a v x → ok' a v x)
    (hstop : ∀ x, stop x → stop' x) : Mirrors ok' stop' model run := by
  cases model with
  | error halt =>
    obtain ⟨x, hx, hs⟩ := h
    exact ⟨x, hx, hstop x hs⟩
  | ok a =>
    obtain ⟨v, x, hx, hv⟩ := h
    exact ⟨v, x, hx, hok a v x hv⟩

theorem tick (h : Mirrors ok stop model fun n => run (n + 1)) : Mirrors ok stop model run := by
  cases model with
  | error halt =>
    obtain ⟨x, hx, hs⟩ := h
    exact ⟨x, hx.tick, hs⟩
  | ok a =>
    obtain ⟨v, x, hx, hv⟩ := h
    exact ⟨v, x, hx.tick, hv⟩

/-- What is known of the matcher's result may be used, too. -/
theorem and_ends {post : α → Prop} (h : Mirrors ok stop model run) (hp : Ends post model) :
    Mirrors (fun a v x => post a ∧ ok a v x) stop model run := by
  cases model with
  | error halt => exact h
  | ok a =>
    obtain ⟨v, x, hx, hv⟩ := h
    exact ⟨v, x, hx, hp, hv⟩

end Mirrors

/-- How a context looks in a frame. -/
def Env.context (env : Env) (f : Frame) : Context :=
  { frame := f, dispatch := env.dispatch, owner := env.owner, sequenceStart := env.sequenceStart }

namespace Machine

/-- The machine ends as an application does. -/
def MirrorsAnswer (limit : Nat) (m : Machine φ) :
    Except Halt (Answer φ) → (Nat → Option (Verdict × Machine φ)) → Prop :=
  Mirrors (fun a v m' => v = a.1 ∧ m.Reaches limit a.2 m') fun m' => ∃ st, m.Reaches limit st m'

/-- The machine ends as an evaluation does. Only the scope of the environment may change; if the run
ends, at least the start of the running sequence is as it was. -/
def MirrorsReply (limit : Nat) (env : Env) (m : Machine φ) :
    Except Halt (Reply φ) → (Nat → Option (Verdict × Env × Machine φ)) → Prop :=
  Mirrors (fun r v x => v = r.value ∧ x.1 = { env with scope := r.scope } ∧
      m.Reaches limit r.state x.2)
    fun x => x.1.sequenceStart = env.sequenceStart ∧ ∃ st, m.Reaches limit st x.2

variable {limit : Nat} {env : Env} {m m' : Machine φ} {st : State φ}

/-- A step that looks at single elements. -/
theorem attempt_mirrors (model : Except Halt (Answer φ)) :
    m.MirrorsAnswer limit model fun _ => some (m.attempt model) := by
  cases model with
  | error halt => exact ⟨m, .pure _, _, .stay⟩
  | ok a => exact ⟨a.1, m.put a.2, .pure _, rfl, .put⟩

theorem answer_mirrors (a : Answer φ) :
    m.MirrorsAnswer limit (.ok a) fun _ => some (m.answer a) := attempt_mirrors (.ok a)

theorem halt_mirrors (c : Cause) :
    m.MirrorsAnswer limit (.error (.fatal c)) fun _ => some (m.halt c) :=
  attempt_mirrors (.error (.fatal c))

/-- From further on, it is the same. -/
theorem MirrorsAnswer.trans {model : Except Halt (Answer φ)}
    {run : Nat → Option (Verdict × Machine φ)} (h : m'.MirrorsAnswer limit model run)
    (hr : m.Reaches limit st m') : m.MirrorsAnswer limit model run :=
  h.mono (fun _ _ _ ⟨hv, h'⟩ => ⟨hv, hr.trans h'⟩) fun _ ⟨t, h'⟩ => ⟨t, hr.trans h'⟩

theorem MirrorsReply.trans {model : Except Halt (Reply φ)} {scope : Scope}
    {run : Nat → Option (Verdict × Env × Machine φ)}
    (h : m'.MirrorsReply limit { env with scope } model run) (hr : m.Reaches limit st m') :
    m.MirrorsReply limit env model run :=
  h.mono (fun _ _ _ ⟨hv, he, h'⟩ => ⟨hv, he, hr.trans h'⟩) fun _ ⟨he, t, h'⟩ => ⟨he, t, hr.trans h'⟩

/-- An application that leaves the environment alone. -/
theorem MirrorsAnswer.reply {model : Except Halt (Answer φ)}
    {run : Nat → Option (Verdict × Machine φ)} (h : m.MirrorsAnswer limit model run) :
    m.MirrorsReply limit env (model >>= fun a => .ok (.ofAnswer env.scope a))
      fun n => run n >>= fun x => some (env.reply x) := by
  refine h.bind ?_ ?_
  · rintro a v m' ⟨hv, hr⟩
    exact ⟨v, (env, m'), .pure _, hv, rfl, hr⟩
  · rintro halt m' ⟨st, hr⟩
    exact ⟨(env, m'), .pure _, rfl, st, hr⟩

end Machine

/-! ### Applications, given how rules are applied -/

/-- The machine applies rules like `apply` while so many are under way. -/
def Applier.Mirrored (e : Engine) (apply : Applier φ) (depth : Nat) : Prop :=
  ∀ (d o : Grammar) (rule : Rule) (args : List Value) (m : Machine φ),
    m.Orderly e.options.maxDepth → m.depth = depth →
      m.MirrorsAnswer e.options.maxDepth
        ((Target.rule o rule).checkCount args >>= fun _ => apply m.frame d o rule args m.state)
        fun n => Machine.applyRule e n d o rule args m

/-- What a name means is applied. A name that was looked up at run time may be unknown. -/
def applyFound (apply : Applier φ) (frame : Frame) (dispatch : Grammar) (name : String)
    (args : List Value) (dynamic : Bool) (st : State φ) : Except Halt (Answer φ) :=
  match dispatch.target? name with
  | some t => applyTarget apply frame dispatch t args st
  | none =>
    if dynamic then .ok (st.reject frame ("rule " ++ name))
    else .error (.fatal (.unknownRule name dispatch.name))

theorem applyFound_false {apply : Applier φ} {f : Frame} {d : Grammar} {name : String}
    {args : List Value} {st : State φ} :
    applyFound apply f d name args false st = applyName apply f d name args st := by
  unfold applyFound applyName
  cases d.target? name <;> rfl

/-- Only one built-in rule applies other rules, apart from the one that looks up a name. -/
theorem applyBuiltin_of_ne_token {apply apply' : Applier φ} {f : Frame} {d : Grammar} {b : Builtin}
    {args : List Value} {st : State φ} (hb : b ≠ .token) :
    applyBuiltin apply f d b args st = applyBuiltin apply' f d b args st := by
  cases b with
  | token => exact absurd rfl hb
  | _ => rfl

theorem Target.checkCount_rule {o : Grammar} {rule : Rule} {args : List Value} :
    (Target.rule o rule).checkCount args =
      if args.length = rule.params.length then .ok ()
      else .error (.fatal (.arityMismatch rule.name (toString rule.params.length) args.length)) := by
  simp only [checkCount, arity, Arity.accepts, beq_iff_eq]
  rfl

theorem applyTarget_rule {apply : Applier φ} {f : Frame} {d o : Grammar} {rule : Rule}
    {args : List Value} {st : State φ} :
    applyTarget apply f d (.rule o rule) args st =
      (Target.rule o rule).checkCount args >>= fun _ => apply f d o rule args st := by
  unfold applyTarget
  rfl

theorem applyTarget_of_refused {apply : Applier φ} {f : Frame} {d : Grammar} {t : Target}
    {args : List Value} {st : State φ} (h : ¬ t.arity.accepts args.length) :
    applyTarget apply f d t args st =
      .error (.fatal (.arityMismatch t.name t.arity.text args.length)) := by
  have hc : t.checkCount args = _ := if_neg h
  cases args <;> (unfold applyTarget; rw [hc]; rfl)

theorem applyTarget_of_accepted {apply : Applier φ} {f : Frame} {d : Grammar} {b : Builtin}
    {args : List Value} {st : State φ} (h : b.arity.accepts args.length)
    (hb : ∀ name rest, b = .apply → args ≠ .string name :: rest) :
    applyTarget apply f d (.builtin b) args st = applyBuiltin apply f d b args st := by
  have hc : (Target.builtin b).checkCount args = .ok () := if_pos h
  unfold applyTarget
  rw [hc]
  cases b with
  | apply =>
    cases args with
    | nil => rfl
    | cons v rest =>
      cases v with
      | string name => exact absurd rfl (hb name rest rfl)
      | _ => rfl
  | _ => rfl

namespace Machine

variable {e : Engine} {apply : Applier φ} {depth : Nat} {m : Machine φ} {d : Grammar}

section Names

variable (hr : apply.Mirrored e depth) (hm : m.Orderly e.options.maxDepth) (hd : m.depth = depth)

include hr hm hd

/-- White space is skipped by a rule or by the built-in rule. -/
theorem applyNamed_spaces_mirrors :
    m.MirrorsAnswer e.options.maxDepth (applySpaces apply m.frame d m.state)
      fun n => applyNamed e n d "spaces" [] false m := by
  refine .tick ?_
  unfold applySpaces
  simp only [applyNamed]
  cases hs : d.resolve? "spaces" with
  | some found => exact hr d found.1 found.2 [] m hm hd
  | none =>
    have hb : Builtin.ofName? "spaces" = some .spaces := by decide
    simp only [hb]
    exact .tick (attempt_mirrors _)

/-- A token: white space, then its argument. -/
theorem applyBuiltin_token_mirrors {args : List Value}
    (hc : Builtin.token.arity.accepts args.length) :
    m.MirrorsAnswer e.options.maxDepth
      (applyToken apply m.frame d (args.headD .nil) m.state)
      fun n => applyBuiltin e n d .token args m := by
  have hlen : args.length = 1 := by simpa [Builtin.arity, Arity.accepts] using hc
  have hnote : m.Reaches e.options.maxDepth m.state (m.note (.handOn args.length 0)) :=
    .note (by rw [hlen]; exact Nat.one_pos)
  refine .tick ?_
  simp only [applyBuiltin, if_pos hc]
  unfold applyToken
  have hspaces := applyNamed_spaces_mirrors (m := m.note (.handOn args.length 0)) (d := d) hr hm hd
  refine (hspaces.trans hnote).bind ?_ ?_
  · rintro ⟨_, st⟩ v m' ⟨rfl, hreach⟩
    cases v with
    | none => exact ⟨none, m', .pure _, rfl, hreach⟩
    | some blank =>
      simp only [hreach.frame, hreach.state]
      cases m.frame.sequel (args.headD .nil) st with
      | error halt => exact ⟨m', .pure _, st, hreach⟩
      | ok a =>
        obtain ⟨w, t⟩ := a
        cases w with
        | none => exact ⟨none, _, .pure _, rfl, hreach.trans .put⟩
        | some w => exact ⟨some w, _, .pure _, rfl, hreach.trans .put⟩
  · rintro halt m' hreach
    exact ⟨m', .pure _, hreach⟩

/-- A built-in rule, if the name that it may look up is applied to its other arguments as the
matcher would. -/
theorem applyBuiltin_mirrors_of {args : List Value} {b : Builtin}
    (hrest : ∀ name rest (m : Machine φ), args = .string name :: rest →
      m.Orderly e.options.maxDepth → m.depth = depth →
        m.MirrorsAnswer e.options.maxDepth (applyFound apply m.frame d name rest true m.state)
          fun n => applyNamed e n d name rest true m) :
    m.MirrorsAnswer e.options.maxDepth (applyTarget apply m.frame d (.builtin b) args m.state)
      fun n => applyBuiltin e n d b args m := by
  by_cases hc : b.arity.accepts args.length
  case neg =>
    rw [applyTarget_of_refused (t := .builtin b) hc]
    refine .tick ?_
    simp only [applyBuiltin, if_neg hc]
    exact halt_mirrors _
  by_cases hname : ∃ name rest, b = .apply ∧ args = .string name :: rest
  · -- the name is looked up, and applied to one argument less
    obtain ⟨name, rest, rfl, rfl⟩ := hname
    have hnote : m.Reaches e.options.maxDepth m.state
        (m.note (.handOn (rest.length + 1) rest.length)) := .note (Nat.lt_succ_self _)
    have happly : applyTarget apply m.frame d (.builtin .apply) (.string name :: rest) m.state =
        applyFound apply m.frame d name rest true m.state := by
      have hcount : (Target.builtin .apply).checkCount (.string name :: rest) = .ok () := if_pos hc
      unfold applyTarget applyFound
      rw [hcount]
      rfl
    rw [happly]
    refine .tick ?_
    simp only [applyBuiltin, if_pos hc]
    exact (hrest name rest (m.note _) rfl hm hd).trans hnote
  · have hb : ∀ name rest, b = .apply → args ≠ .string name :: rest :=
      fun name rest h1 h2 => hname ⟨name, rest, h1, h2⟩
    rw [applyTarget_of_accepted hc hb]
    by_cases ht : b = .token
    · subst ht
      exact applyBuiltin_token_mirrors hr hm hd hc
    · rw [applyBuiltin_of_ne_token ht]
      refine .tick ?_
      simp only [applyBuiltin, if_pos hc]
      cases b with
      | token => exact absurd rfl ht
      | apply =>
        cases args with
        | nil => exact attempt_mirrors _
        | cons v rest =>
          cases v with
          | string name => exact absurd rfl (hb name rest rfl)
          | _ => exact attempt_mirrors _
      | _ => exact attempt_mirrors _

end Names

/-- **The machine applies names like the matcher.** When a name is looked up at run time there is
one argument less, which is what the induction is on. -/
theorem applyNamed_mirrors (hr : apply.Mirrored e depth) (name : String) (args : List Value)
    (dynamic : Bool) (m : Machine φ) (hm : m.Orderly e.options.maxDepth) (hd : m.depth = depth) :
    m.MirrorsAnswer e.options.maxDepth (applyFound apply m.frame d name args dynamic m.state)
      fun n => applyNamed e n d name args dynamic m := by
  refine .tick ?_
  unfold applyFound Grammar.target?
  simp only [applyNamed]
  cases d.resolve? name with
  | some found =>
    dsimp only
    rw [applyTarget_rule]
    exact hr d found.1 found.2 args m hm hd
  | none =>
    cases Builtin.ofName? name with
    | some b =>
      refine applyBuiltin_mirrors_of hr hm hd fun name' rest m' heq hm' hd' => ?_
      exact applyNamed_mirrors hr name' rest true m' hm' hd'
    | none =>
      cases dynamic with
      | true => exact answer_mirrors _
      | false => exact halt_mirrors _
termination_by args.length
decreasing_by
  rw [heq]
  exact Nat.lt_succ_self _

/-- Names that are written in a rule are applied so. -/
theorem applyName_mirrors (hr : apply.Mirrored e depth) (d : Grammar) (name : String)
    (args : List Value) (hm : m.Orderly e.options.maxDepth) (hd : m.depth = depth) :
    m.MirrorsAnswer e.options.maxDepth (applyName apply m.frame d name args m.state)
      fun n => applyNamed e n d name args false m := by
  have hfound := applyNamed_mirrors (d := d) hr name args false m hm hd
  rw [applyFound_false] at hfound
  exact hfound

end Machine

end Packrat
