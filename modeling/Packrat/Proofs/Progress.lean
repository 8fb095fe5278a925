import Packrat.Proofs.Application
import Packrat.Proofs.Evaluation
import Packrat.Proofs.Tables

/-!
# Progress

A match never stands outside its input. What fails leaves it where it was, and what succeeds leaves
it there or further on; this goes for what is found in a table, too, so a loop that moves on with
every round ends within the rounds that its input allows for.

What a match notes on the way is kept in books: a property of accounts that every step respects, as
long as it reports places that the books take.

* `Books`: a property of accounts, and the frames and places that it is about.
* `State.Sound`: a match stands within its frame, and so does all that its table holds.
* `Advance`: how a match has moved from one state to another.
* `repeatRounds_ends`, `grow_ends`: neither kind of loop is exhausted.
* `Expr.eval_advances`, `applyDepth_advances`: every evaluation and every application advances.
-/

namespace Packrat

/-! ### Positions in an input -/

namespace Input

variable {input : Input} {pos : Nat}

theorem lt_size_of_element? {v : Value} (h : input.element? pos = some v) : pos < input.size := by
  cases input with
  | text chars =>
    obtain ⟨c, hc, -⟩ := Option.map_eq_some_iff.1 h
    exact (Array.getElem?_eq_some_iff.1 hc).1
  | items values => exact (Array.getElem?_eq_some_iff.1 h).1

theorem lt_size_of_char? {c : Char} (h : input.char? pos = some c) : pos < input.size := by
  cases input with
  | text chars => exact (Array.getElem?_eq_some_iff.1 h).1
  | items values =>
    obtain ⟨v, hv, -⟩ := Option.bind_eq_some_iff.1 h
    exact (Array.getElem?_eq_some_iff.1 hv).1

/-- A run of characters ends in the text, after its start. -/
theorem runEnd?_bounds {chars : Array Char} {stop : Nat} :
    ∀ {cs : List Char} {pos : Nat}, pos ≤ chars.size → runEnd? chars pos cs = some stop →
      pos ≤ stop ∧ stop ≤ chars.size
  | [], pos, hp, h => by
    cases h
    exact ⟨Nat.le_refl _, hp⟩
  | c :: cs, pos, hp, h => by
    simp only [runEnd?] at h
    split at h
    next hc =>
      have hlt : pos < chars.size := (Array.getElem?_eq_some_iff.1 hc).1
      have := runEnd?_bounds hlt h
      omega
    next => cases h

theorem skipBlanksUpTo_bounds (fuel : Nat) (hp : pos ≤ input.size) :
    pos ≤ input.skipBlanksUpTo fuel pos ∧ input.skipBlanksUpTo fuel pos ≤ input.size := by
  induction fuel generalizing pos with
  | zero => exact ⟨Nat.le_refl _, hp⟩
  | succ fuel ih =>
    simp only [skipBlanksUpTo]
    split
    next hb =>
      -- a blank is a character of the input, so there is room behind it
      obtain ⟨c, hc, -⟩ := (Option.any_eq_true _ _).1 hb
      have hlt : pos + 1 ≤ input.size := lt_size_of_char? hc
      have := ih hlt
      omega
    next => exact ⟨Nat.le_refl _, hp⟩

/-- White space is skipped within the input. -/
theorem skipBlanks_bounds (hp : pos ≤ input.size) :
    pos ≤ input.skipBlanks pos ∧ input.skipBlanks pos ≤ input.size :=
  skipBlanksUpTo_bounds _ hp

end Input

namespace Frame

variable {f inner : Frame} {pos : Nat}

theorem lt_size_of_hasExactly {v : Value} (h : f.hasExactly pos v = true) : pos < f.input.size := by
  unfold hasExactly at h
  split at h
  next chars hi =>
    obtain ⟨c, -, hc⟩ := (Option.any_eq_true _ _).1 h
    rw [hi]
    exact (Array.getElem?_eq_some_iff.1 (eq_of_beq hc)).1
  next values hi =>
    obtain ⟨w, hw, -⟩ := (Option.any_eq_true _ _).1 h
    rw [hi]
    exact (Array.getElem?_eq_some_iff.1 hw).1

theorem literalEnd?_bounds {text : String} {stop : Nat} (hp : pos ≤ f.input.size)
    (h : f.literalEnd? pos text = some stop) : pos ≤ stop ∧ stop ≤ f.input.size := by
  unfold literalEnd? at h
  split at h
  next chars hi =>
    rw [hi] at hp ⊢
    exact Input.runEnd?_bounds hp h
  next values hi =>
    split at h
    next hb =>
      obtain ⟨w, hw, -⟩ := Option.bind_eq_some_iff.1 hb
      have hlt : pos < values.size := (Array.getElem?_eq_some_iff.1 hw).1
      cases h
      rw [hi]
      exact ⟨Nat.le_succ pos, hlt⟩
    next => cases h

theorem lt_size_of_enter? (h : f.enter? pos = some inner) : pos < f.input.size := by
  unfold enter? at h
  cases he : f.input.element? pos with
  | none => simp [he] at h
  | some v => exact Input.lt_size_of_element? he

end Frame

/-! ### What a match keeps to -/

/-- **A computation that comes to an end of its own**: it satisfies `post`, or it ends the run for
another reason than a loop without an end. -/
def Ends {α : Type} (post : α → Prop) : Except Halt α → Prop
  | .ok a => post a
  | .error h => h ≠ .exhausted

namespace Ends

variable {α β : Type} {post : α → Prop} {post' : β → Prop} {m : Except Halt α}

theorem bind {k : α → Except Halt β} (h : Ends post m) (hk : ∀ a, post a → Ends post' (k a)) :
    Ends post' (m >>= k) := by
  cases m with
  | error halt => exact h
  | ok a => exact hk a h

theorem mono {post' : α → Prop} (h : Ends post m) (hp : ∀ a, post a → post' a) : Ends post' m := by
  cases m with
  | error halt => exact h
  | ok a => exact hp a h

theorem and {post' : α → Prop} (h : Ends post m) (h' : Ends post' m) :
    Ends (fun a => post a ∧ post' a) m := by
  cases m with
  | error halt => exact h
  | ok a => exact ⟨h, h'⟩

theorem fatal {c : Cause} : Ends post (.error (.fatal c)) := by
  intro h
  cases h

theorem ofAction {r : Except Cause α} {k : α → Except Halt β} (h : ∀ a, Ends post' (k a)) :
    Ends post' (Halt.ofAction r >>= k) := by
  cases r with
  | error c => exact .fatal
  | ok a => exact h a

end Ends

/-- **Books** on accounts: what is true of the accounts of a match that reports only places that the
books take. -/
structure Books (φ : Type) [Account φ] where
  /-- The frames that a match may be in. -/
  frames : Frame → Prop
  /-- The places that may be reported. -/
  places : Frame → Nat → Prop
  accounts : φ → Prop
  enter {f inner : Frame} {p : Nat} : frames f → f.enter? p = some inner → frames inner
  place {f : Frame} {p : Nat} : frames f → p ≤ f.input.size → places f p
  empty : accounts Account.empty
  miss {f : Frame} {p : Nat} {label : String} : frames f → places f p →
    accounts (Account.miss f p label)
  append {a b : φ} : accounts a → accounts b → accounts (Account.append a b)
  rule {f : Frame} {rule : String} {start : Nat} {failed : Bool} {a : φ} : accounts a →
    accounts (Account.ofRule f rule start failed a)
  negation {a : φ} : accounts a → accounts (Account.ofNegation a)

/-- Books that say nothing. -/
def Books.blank (φ : Type) [Account φ] : Books φ where
  frames _ := True
  places _ _ := True
  accounts _ := True
  enter _ _ := trivial
  place _ _ := trivial
  empty := trivial
  miss _ _ := trivial
  append _ _ := trivial
  rule _ := trivial
  negation _ := trivial

variable {φ : Type} [Account φ] (B : Books φ)

/-- What a table holds for a frame: results that end between their start and the end of the
input. -/
def Memo.Sound (f : Frame) (memo : Memo φ) : Prop :=
  ∀ spot v stop a, memo.get? spot = some (.done v stop a) →
    B.accounts a ∧ (v.isSome = true → spot.1 ≤ stop ∧ stop ≤ f.input.size)

/-- **A sound state** of a match in a frame. -/
structure State.Sound (f : Frame) (st : State φ) : Prop where
  frame : B.frames f
  within : st.pos ≤ f.input.size
  table : st.memo.Sound B f
  account : B.accounts st.account

/-- **A match has advanced** from `s` to `t` with the outcome `v`: a failure stays where it was, a
success goes on. The log of the table is never cut shorter than it was. -/
structure Advance (f : Frame) (s : State φ) (v : Option Value) (t : State φ) : Prop where
  back : v = none → t.pos = s.pos
  forward : s.pos ≤ t.pos
  log : s.memo.log.size ≤ t.memo.log.size
  sound : t.Sound B f

variable {B} {f inner : Frame} {s t u : State φ} {v w : Option Value} {p : Nat}

namespace Memo.Sound

variable {memo : Memo φ} {spot : Spot}

theorem empty : (Memo.empty : Memo φ).Sound B f := Memo.Every.empty

theorem set_active (h : memo.Sound B f) {met : Bool} : (memo.set spot (.active met)).Sound B f :=
  Memo.Every.set_active h

theorem set_done (h : memo.Sound B f) {stop : Nat} {a : φ} (ha : B.accounts a)
    (hs : v.isSome = true → spot.1 ≤ stop ∧ stop ≤ f.input.size) :
    (memo.set spot (.done v stop a)).Sound B f :=
  Memo.Every.set_done h ⟨ha, hs⟩

theorem erase (h : memo.Sound B f) : (memo.erase spot).Sound B f := Memo.Every.erase h

theorem begin (h : memo.Sound B f) : (memo.begin spot).Sound B f := Memo.Every.begin h

theorem forgetAfter (h : memo.Sound B f) {mark : Nat} : (memo.forgetAfter mark).Sound B f :=
  Memo.Every.forgetAfter h

end Memo.Sound

omit [Account φ] in
theorem Memo.size_log_forgetAfter (memo : Memo φ) (mark : Nat) :
    (memo.forgetAfter mark).log.size = min (mark + 1) memo.log.size := by
  rw [log_forgetAfter, Array.take, Array.size_extract, Nat.sub_zero]

theorem State.Sound.moveTo (h : s.Sound B f) (hp : p ≤ f.input.size) : (s.moveTo p).Sound B f :=
  ⟨h.frame, hp, h.table, h.account⟩

theorem State.Sound.expect (h : s.Sound B f) (hp : B.places f p) {label : String} :
    (s.expect f p label).Sound B f :=
  ⟨h.frame, h.within, h.table, B.append h.account (B.miss h.frame hp)⟩

/-- The contents of an element are entered in a sound state. -/
theorem State.Sound.start (h : s.Sound B f) (he : f.enter? p = some inner) :
    (State.start s.account).Sound B inner :=
  ⟨B.enter h.frame he, Nat.zero_le _, .empty, h.account⟩

/-- An application begins in a sound state. -/
theorem State.Sound.entered (h : s.Sound B f) {call : Call} : (s.entered call).Sound B f :=
  ⟨h.frame, h.within, h.table.begin, B.empty⟩

/-- A round of growth starts in a sound state. -/
theorem State.Sound.seeded (h : s.Sound B f) {spot : Spot} {mark stop : Nat} {seed : Value}
    (hseed : spot.1 ≤ stop ∧ stop ≤ f.input.size) : (s.seeded spot mark seed stop).Sound B f :=
  ⟨h.frame, Nat.le_trans hseed.1 hseed.2, (h.table.set_done B.empty fun _ => hseed).forgetAfter,
    h.account⟩

/-- An application that begins is the last in the log. -/
theorem State.size_log_entered (s : State φ) (call : Call) :
    (s.entered call).memo.log.size = s.memo.mark + 1 := by
  show (s.memo.begin _).log.size = _
  rw [Memo.log_begin, Array.size_push]
  rfl

/-- The application at the mark stays in the log when those after it are forgotten. -/
theorem State.mark_lt_seeded {spot : Spot} {mark stop : Nat} {seed : Value}
    (h : mark < s.memo.log.size) : mark < (s.seeded spot mark seed stop).memo.log.size := by
  show mark < (Memo.forgetAfter _ _).log.size
  rw [Memo.size_log_forgetAfter, Memo.log_set]
  omega

namespace Advance

theorem stay (h : s.Sound B f) : Advance B f s v s :=
  ⟨fun _ => rfl, Nat.le_refl _, Nat.le_refl _, h⟩

theorem success {value : Value} (forward : s.pos ≤ t.pos)
    (log : s.memo.log.size ≤ t.memo.log.size) (sound : t.Sound B f) :
    Advance B f s (some value) t where
  back h := by cases h
  forward := forward
  log := log
  sound := sound

theorem move {value : Value} (h : s.Sound B f) (hp : s.pos ≤ p) (hs : p ≤ f.input.size) :
    Advance B f s (some value) (s.moveTo p) :=
  .success hp (Nat.le_refl _) (h.moveTo hs)

theorem step {value : Value} (h : s.Sound B f) (hs : s.pos < f.input.size) :
    Advance B f s (some value) (s.moveTo (s.pos + 1)) :=
  .move h (Nat.le_succ _) hs

theorem expect (h : s.Sound B f) (hp : B.places f p) {label : String} :
    Advance B f s v (s.expect f p label) :=
  ⟨fun _ => rfl, Nat.le_refl _, Nat.le_refl _, h.expect hp⟩

theorem reject (h : s.Sound B f) {label : String} :
    Advance B f s (s.reject f label).1 (s.reject f label).2 :=
  .expect h (B.place h.frame h.within)

/-- A success after what went before. -/
theorem trans {value : Value} (h : Advance B f s v t) (h' : Advance B f t (some value) u) :
    Advance B f s (some value) u :=
  .success (Nat.le_trans h.forward h'.forward) (Nat.le_trans h.log h'.log) h'.sound

/-- Going back to the start, with any outcome. -/
theorem rewound (h : Advance B f s v t) (hs : s.pos ≤ f.input.size) :
    Advance B f s w (t.moveTo s.pos) :=
  ⟨fun _ => rfl, Nat.le_refl _, h.log, h.sound.moveTo hs⟩

/-- A success may yield another value. -/
theorem some {value : Value} (h : Advance B f s v t) : Advance B f s (some value) t :=
  .success h.forward h.log h.sound

end Advance

/-! ### Single elements -/

namespace Frame

theorem any_advances (h : s.Sound B f) : Advance B f s (f.any s).1 (f.any s).2 := by
  unfold any
  split
  next v he => exact .step h (Input.lt_size_of_element? he)
  next => exact .reject h

theorem exactly_advances (h : s.Sound B f) {value : Value} :
    Advance B f s (f.exactly value s).1 (f.exactly value s).2 := by
  unfold exactly
  split
  next he => exact .step h (lt_size_of_hasExactly he)
  next => exact .reject h

theorem literal_advances (h : s.Sound B f) {text : String} :
    Advance B f s (f.literal text s).1 (f.literal text s).2 := by
  unfold literal
  split
  next stop he =>
    obtain ⟨hle, hs⟩ := literalEnd?_bounds h.within he
    exact .move h hle hs
  next => exact .reject h

theorem charIf_advances (h : s.Sound B f) {test : Char → Bool} {label : String} :
    Advance B f s (f.charIf test label s).1 (f.charIf test label s).2 := by
  unfold charIf
  split
  next c hc =>
    split
    · exact .step h (Input.lt_size_of_char? hc)
    · exact .reject h
  next => exact .reject h

theorem itemIf_advances (h : s.Sound B f) {test : Value → Bool} {label : String} :
    Advance B f s (f.itemIf test label s).1 (f.itemIf test label s).2 := by
  unfold itemIf
  split
  next => exact .reject h
  next values hi =>
    split
    next v hv =>
      have hlt : s.pos < f.input.size := by
        rw [hi]
        exact (Array.getElem?_eq_some_iff.1 hv).1
      split
      · exact .step h hlt
      · exact .reject h
    next => exact .reject h

theorem sequel_advances (h : s.Sound B f) {value : Value} :
    Ends (fun r => Advance B f s r.1 r.2) (f.sequel value s) := by
  unfold sequel
  split
  · exact literal_advances h
  · split
    · exact .fatal
    · exact exactly_advances h

end Frame

/-! ### Applications, given how rules are applied -/

variable (B) in
/-- A way of applying rules that advances. -/
def Applier.Advances (apply : Applier φ) : Prop :=
  ∀ (f : Frame) (d o : Grammar) (r : Rule) (args : List Value) (s : State φ), s.Sound B f →
    Ends (fun x => Advance B f s x.1 x.2) (apply f d o r args s)

variable {apply : Applier φ} {registry : Registry} {d o : Grammar}

theorem Target.checkCount_ends {α : Type} {post : α → Prop} {target : Target} {args : List Value}
    {k : Unit → Except Halt α} (h : Ends post (k ())) :
    Ends post (target.checkCount args >>= k) := by
  unfold checkCount
  split
  · exact h
  · exact .fatal

theorem applySpaces_advances (ha : apply.Advances B) (h : s.Sound B f) :
    Ends (fun r => Advance B f s r.1 r.2) (applySpaces apply f d s) := by
  unfold applySpaces
  split
  next or o r hr => exact Target.checkCount_ends (ha f d o r [] s h)
  next =>
    obtain ⟨hle, hs⟩ := Input.skipBlanks_bounds h.within
    exact .move h hle hs

theorem applyToken_advances (ha : apply.Advances B) (h : s.Sound B f) {value : Value} :
    Ends (fun r => Advance B f s r.1 r.2) (applyToken apply f d value s) := by
  unfold applyToken
  refine (applySpaces_advances ha h).bind fun r hr => ?_
  obtain ⟨v, t⟩ := r
  cases v with
  | none => exact hr
  | some blank =>
    refine (Frame.sequel_advances hr.sound).bind fun r' hr' => ?_
    obtain ⟨v', u⟩ := r'
    cases v' with
    | some v' => exact hr.trans hr'
    -- the token is not there: the white space before it is given back
    | none =>
      have hback : Advance B f s (some .nil) u := hr.trans hr'.some
      exact hback.rewound h.within

theorem applyBuiltin_advances (ha : apply.Advances B) (h : s.Sound B f) {b : Builtin}
    {args : List Value} : Ends (fun r => Advance B f s r.1 r.2) (applyBuiltin apply f d b args s) := by
  have hhere : ∀ value : Value, Advance B f s (some value) (s.moveTo s.pos) := fun _ =>
    .move h (Nat.le_refl _) h.within
  cases b with
  | anything => exact Frame.any_advances h
  | «end» =>
    simp only [applyBuiltin]
    split
    · exact hhere _
    · exact .reject h
  | empty | pos => exact hhere _
  | spaces =>
    obtain ⟨hle, hs⟩ := Input.skipBlanks_bounds h.within
    exact .move h hle hs
  | col =>
    simp only [applyBuiltin]
    split
    · exact hhere _
    · exact .reject h
  | space | digit | letter | char => exact Frame.charIf_advances h
  | string | number => exact Frame.itemIf_advances h
  | seq => exact Frame.sequel_advances h
  | token => exact applyToken_advances ha h
  | exactly => exact Frame.exactly_advances h
  | apply => exact .reject h

/-- **What a name means advances**, if the rules do. -/
theorem applyTarget_advances (ha : apply.Advances B) (h : s.Sound B f) {target : Target}
    {args : List Value} :
    Ends (fun r => Advance B f s r.1 r.2) (applyTarget apply f d target args s) := by
  induction args generalizing target with
  | nil =>
    unfold applyTarget
    refine Target.checkCount_ends ?_
    cases target with
    | rule o r => exact ha f d o r [] s h
    | builtin b => cases b <;> exact applyBuiltin_advances ha h
  | cons v rest ih =>
    unfold applyTarget
    refine Target.checkCount_ends ?_
    split
    next => exact ha f d _ _ _ s h
    next name rest' h1 h2 =>
      cases h2
      split
      · exact ih
      · exact .reject h
    next => exact applyBuiltin_advances ha h

theorem applyName_advances (ha : apply.Advances B) (h : s.Sound B f) {name : String}
    {args : List Value} :
    Ends (fun r => Advance B f s r.1 r.2) (applyName apply f d name args s) := by
  unfold applyName
  split
  · exact applyTarget_advances ha h
  · exact .fatal

/-! ### Evaluation, given how rules are applied -/

/-- **Rounds of a repetition end** within what is left of the input and one more: every round but
the last goes further on. -/
theorem repeatRounds_ends {body : Run φ} (hb : ∀ scope s, s.Sound B f →
      Ends (fun r => Advance B f s r.value r.state) (body scope s))
    (min : Nat) (max : Option Nat) (fuel : Nat) (taken : Array Value) (scope : Scope) (s : State φ)
    (h : s.Sound B f) (hfuel : f.input.size - s.pos < fuel) :
    Ends (fun r => Advance B f s (some .nil) r.2.2)
      (repeatRounds body min max fuel taken scope s) := by
  induction fuel generalizing taken scope s with
  | zero => omega
  | succ fuel ih =>
    unfold repeatRounds
    split
    · exact .stay h
    refine (hb scope s h).bind fun r hr => ?_
    obtain ⟨v, scope', t⟩ := r
    cases v with
    | none => exact hr.some
    | some v =>
      dsimp only
      split
      · exact hr.some
      next hne =>
        have hlt : s.pos < t.pos := Nat.lt_of_le_of_ne hr.forward (Ne.symm hne)
        have hle : t.pos ≤ f.input.size := hr.sound.within
        exact (ih _ _ t hr.sound (by omega)).mono fun _ hu => hr.trans hu

theorem evalRepeat_advances {body : Run φ} (hb : ∀ scope s, s.Sound B f →
      Ends (fun r => Advance B f s r.value r.state) (body scope s))
    {min : Nat} {max : Option Nat} {scope : Scope} (h : s.Sound B f) :
    Ends (fun r => Advance B f s r.value r.state)
      (evalRepeat body min max f.input.size scope s) := by
  unfold evalRepeat
  refine (repeatRounds_ends hb min max _ #[] scope s h (Nat.lt_succ_self _)).bind fun r hr => ?_
  obtain ⟨taken, scope', t⟩ := r
  dsimp only
  split
  · exact hr.rewound h.within
  · exact hr.some

theorem evalLookahead_advances {body : Run φ} {negated : Bool} {scope : Scope}
    (hb : ∀ s, s.Sound B f → Ends (fun r => Advance B f s r.value r.state) (body scope s))
    (h : s.Sound B f) :
    Ends (fun r => Advance B f s r.value r.state) (evalLookahead body negated scope s) := by
  unfold evalLookahead
  cases negated with
  | false => exact (hb s h).bind fun r hr => hr.rewound h.within
  | true =>
    have hs : ({ s with account := Account.empty } : State φ).Sound B f :=
      ⟨h.frame, h.within, h.table, B.empty⟩
    refine (hb _ hs).bind fun r hr => ?_
    exact ⟨fun _ => rfl, Nat.le_refl _, hr.log, h.frame, h.within, hr.sound.table,
      B.append h.account (B.negation hr.sound.account)⟩

theorem evalNested_advances {body : Frame → Run φ} {scope : Scope}
    (hb : ∀ inner s, s.Sound B inner →
      Ends (fun r => Advance B inner s r.value r.state) (body inner scope s))
    (h : s.Sound B f) :
    Ends (fun r => Advance B f s r.value r.state) (evalNested body f scope s) := by
  cases he : f.enter? s.pos with
  | none =>
    simp only [evalNested, he]
    exact Advance.reject h
  | some inner =>
    simp only [evalNested, he]
    refine (hb inner _ (h.start he)).bind fun r hr => ?_
    obtain ⟨v, scope', t⟩ := r
    -- the frame around the element is as it was, but for what was missed inside
    have hback : Advance B f s none { s with account := t.account } :=
      ⟨fun _ => rfl, Nat.le_refl _, Nat.le_refl _, h.frame, h.within, h.table, hr.sound.account⟩
    cases v with
    | none => exact hback
    | some v =>
      dsimp only
      split
      · have hend : B.accounts (t.expect inner t.pos "end of list").account :=
          (hr.sound.expect (B.place hr.sound.frame hr.sound.within)).account
        exact ⟨fun _ => rfl, Nat.le_refl _, Nat.le_refl _, h.frame, h.within, h.table, hend⟩
      · have hlt : s.pos < f.input.size := Frame.lt_size_of_enter? he
        exact .success (Nat.le_succ _) (Nat.le_refl _) ⟨h.frame, hlt, h.table, hr.sound.account⟩

variable (B) in
/-- Where the running sequence started is a place that may be reported. -/
def Context.Placed (ctx : Context) : Prop :=
  ∀ p, ctx.sequenceStart = some p → B.places ctx.frame p

theorem Context.Placed.of_none {ctx : Context} (h : ctx.sequenceStart = none) : ctx.Placed B := by
  intro p hp
  rw [h] at hp
  cases hp

mutual

/-- **Every evaluation advances**, if the applications of rules do. -/
theorem Expr.eval_advances (ha : apply.Advances B) :
    ∀ (e : Expr) (ctx : Context) {scope : Scope} {s : State φ}, ctx.Placed B →
      s.Sound B ctx.frame →
        Ends (fun r => Advance B ctx.frame s r.value r.state) (e.eval apply registry ctx scope s)
  | .any, ctx, scope, s, _, h => Frame.any_advances h
  | .terminal _, ctx, scope, s, _, h => Frame.exactly_advances h
  | .literal _, ctx, scope, s, _, h => Frame.literal_advances h
  | .range _ _, ctx, scope, s, _, h => Frame.charIf_advances h
  | .sequence items, ctx, scope, s, _, h => by
    rw [Expr.eval]
    have hp : ({ ctx with sequenceStart := some s.pos } : Context).Placed B := by
      intro p hp
      cases hp
      exact B.place h.frame h.within
    refine (Expr.evalSequence_advances ha items { ctx with sequenceStart := some s.pos } hp h).bind
      fun r hr => ?_
    obtain ⟨v, scope', t⟩ := r
    cases v with
    | none => exact hr.rewound h.within
    | some v => exact hr.some
  | .choice alternatives, ctx, scope, s, hp, h => by
    rw [Expr.eval]
    exact Expr.evalChoice_advances ha alternatives ctx hp h
  | .repeated body min max, ctx, scope, s, hp, h => by
    rw [Expr.eval]
    exact evalRepeat_advances (fun _ _ h' => Expr.eval_advances ha body ctx hp h') h
  | .lookahead negated body, ctx, scope, s, hp, h => by
    rw [Expr.eval]
    exact evalLookahead_advances (fun _ h' => Expr.eval_advances ha body ctx hp h') h
  | .apply rule args, ctx, scope, s, _, h => by
    rw [Expr.eval]
    exact .ofAction fun _ => (applyName_advances ha h).bind fun _ hr => hr
  | .super rule args, ctx, scope, s, _, h => by
    rw [Expr.eval]
    refine .ofAction fun _ => ?_
    split
    · exact (applyTarget_advances ha h).bind fun _ hr => hr
    · exact .fatal
  | .foreign grammar rule args, ctx, scope, s, _, h => by
    rw [Expr.eval]
    refine .ofAction fun _ => ?_
    split
    · exact (applyName_advances ha h).bind fun _ hr => hr
    · exact .fatal
  | .bind name body, ctx, scope, s, hp, h => by
    rw [Expr.eval]
    refine (Expr.eval_advances ha body ctx hp h).bind fun r hr => ?_
    obtain ⟨v, scope', t⟩ := r
    cases v with
    | none => exact hr
    | some v => exact hr
  | .action a, ctx, scope, s, _, h => by
    rw [Expr.eval]
    exact .ofAction fun _ => .stay h
  | .guard a, ctx, scope, s, hp, h => by
    rw [Expr.eval]
    refine .ofAction fun _ => ?_
    split
    · exact .stay h
    · -- the guard fails where the running sequence started, else here
      refine .expect h ?_
      cases hs : ctx.sequenceStart with
      | none => exact B.place h.frame h.within
      | some p => exact hp p hs
  | .nested body, ctx, scope, s, _, h => by
    rw [Expr.eval]
    exact evalNested_advances (fun inner _ h' =>
      Expr.eval_advances ha body { ctx with frame := inner, sequenceStart := none } (.of_none rfl)
        h') h
  | .capture body, ctx, scope, s, hp, h => by
    rw [Expr.eval]
    refine (Expr.eval_advances ha body ctx hp h).bind fun r hr => ?_
    obtain ⟨v, scope', t⟩ := r
    cases v with
    | none => exact hr
    | some v => exact hr.some

theorem Expr.evalSequence_advances (ha : apply.Advances B) :
    ∀ (es : List Expr) (ctx : Context) {last : Value} {scope : Scope} {s : State φ},
      ctx.Placed B → s.Sound B ctx.frame →
        Ends (fun r => Advance B ctx.frame s (some .nil) r.state)
          (Expr.evalSequence apply registry es ctx last scope s)
  | [], ctx, last, scope, s, _, h => by
    rw [Expr.evalSequence]
    exact .stay h
  | e :: es, ctx, last, scope, s, hp, h => by
    rw [Expr.evalSequence]
    refine (Expr.eval_advances ha e ctx hp h).bind fun r hr => ?_
    obtain ⟨v, scope', t⟩ := r
    cases v with
    | none => exact hr.some
    | some v => exact (Expr.evalSequence_advances ha es ctx hp hr.sound).mono fun _ hu => hr.trans hu

theorem Expr.evalChoice_advances (ha : apply.Advances B) :
    ∀ (es : List Expr) (ctx : Context) {scope : Scope} {s : State φ}, ctx.Placed B →
      s.Sound B ctx.frame →
        Ends (fun r => Advance B ctx.frame s r.value r.state)
          (Expr.evalChoice apply registry es ctx scope s)
  | [], ctx, scope, s, _, h => by
    rw [Expr.evalChoice]
    exact .stay h
  | e :: es, ctx, scope, s, hp, h => by
    rw [Expr.evalChoice]
    refine (Expr.eval_advances ha e ctx hp h).bind fun r hr => ?_
    obtain ⟨v, scope', t⟩ := r
    cases v with
    | some v => exact hr
    | none =>
      -- the next alternative starts where this one did
      have hback : Advance B ctx.frame s none (t.moveTo s.pos) := hr.rewound h.within
      refine (Expr.evalChoice_advances ha es ctx hp hback.sound).mono fun r hr' => ?_
      exact ⟨hr'.back, hr'.forward, Nat.le_trans hback.log hr'.log, hr'.sound⟩

end

theorem runBody_advances (ha : apply.Advances B) (h : s.Sound B f) {rule : Rule}
    {args : List Value} :
    Ends (fun r => Advance B f s r.1 r.2) (runBody apply registry f d o rule args s) :=
  (Expr.eval_advances ha rule.body { frame := f, dispatch := d, owner := o } (.of_none rfl) h).bind
    fun _ hr => hr

/-! ### Applications through the table -/

section Table

variable {body : Attempt φ} {call : Call} {spot : Spot} {mark : Nat}
  (hb : ∀ s : State φ, s.Sound B f → Ends (fun r => Advance B f s r.1 r.2) (body s))

include hb

/-- **Growth ends** within what is left of the input after the seed and one more: every round but
the last ends further on. -/
theorem grow_ends (fuel : Nat) (seed : Value) (stop : Nat) (s : State φ) (h : s.Sound B f)
    (hmark : mark < s.memo.log.size) (hseed : spot.1 ≤ stop ∧ stop ≤ f.input.size)
    (hfuel : f.input.size - stop < fuel) :
    Ends (fun r => spot.1 ≤ r.2.pos ∧ mark < r.2.memo.log.size ∧ r.2.Sound B f)
      (grow body spot mark fuel seed stop s) := by
  induction fuel generalizing seed stop s with
  | zero => omega
  | succ fuel ih =>
    rw [grow_succ]
    refine (hb _ (h.seeded hseed)).bind fun r hr => ?_
    obtain ⟨v, t⟩ := r
    have hlog : mark < t.memo.log.size := Nat.lt_of_lt_of_le (State.mark_lt_seeded hmark) hr.log
    -- growth that stops goes to where the seed ended
    have hgrown : spot.1 ≤ (t.grown stop mark).pos ∧ mark < (t.grown stop mark).memo.log.size ∧
        (t.grown stop mark).Sound B f := by
      refine ⟨hseed.1, ?_, hr.sound.frame, hseed.2, hr.sound.table.forgetAfter, hr.sound.account⟩
      show mark < (Memo.forgetAfter _ _).log.size
      rw [Memo.size_log_forgetAfter]
      omega
    cases v with
    | none => exact hgrown
    | some v =>
      dsimp only
      split
      next hlt =>
        have hle : t.pos ≤ f.input.size := hr.sound.within
        exact ih v t.pos t hr.sound hlog ⟨by omega, hle⟩ (by omega)
      next => exact hgrown

/-- An application that begins, and perhaps grows, advances. -/
theorem ripened_advances (h : s.Sound B f) (hpos : spot.1 = s.pos)
    (hlog : s.memo.log.size = mark + 1) :
    Ends (fun r => Advance B f s r.1 r.2) (ripened body f spot mark s) := by
  unfold ripened
  refine (hb s h).bind fun r hr => ?_
  obtain ⟨v, t⟩ := r
  cases v with
  | none => exact hr
  | some seed =>
    dsimp only
    split
    · have hmark : mark < t.memo.log.size := by
        have hle : s.memo.log.size ≤ t.memo.log.size := hr.log
        omega
      have hseed : spot.1 ≤ t.pos ∧ t.pos ≤ f.input.size := ⟨hpos ▸ hr.forward, hr.sound.within⟩
      refine (grow_ends hb _ seed t.pos t hr.sound hmark hseed (Nat.lt_succ_self _)).bind
        fun r' hr' => ?_
      obtain ⟨hle, hmark', hsound⟩ := hr'
      exact .success (hpos ▸ hle) (by rw [hlog]; exact hmark') hsound
    · exact hr

/-- **An application through the table advances**, if its body does. -/
theorem memoized_advances {keep : Bool} (h : s.Sound B f) :
    Ends (fun r => Advance B f s r.1 r.2) (memoized keep f call body s) := by
  cases hg : s.memo.get? (s.pos, call) with
  | some entry =>
    cases entry with
    | active met =>
      rw [memoized_of_active hg]
      exact ⟨fun _ => rfl, Nat.le_refl _, Nat.le_refl _, h.frame, h.within, h.table.set_active,
        h.account⟩
    | done v stop a =>
      rw [memoized_of_done hg]
      obtain ⟨ha, hstop⟩ := h.table _ _ _ _ hg
      have hsound : (s.missed a).Sound B f :=
        ⟨h.frame, h.within, h.table, B.append h.account ha⟩
      cases v with
      | none => exact ⟨fun _ => rfl, Nat.le_refl _, Nat.le_refl _, hsound.moveTo h.within⟩
      | some v => exact .success (hstop rfl).1 (Nat.le_refl _) (hsound.moveTo (hstop rfl).2)
  | none =>
    rw [memoized_of_none hg]
    have hsize : (s.entered call).memo.log.size = s.memo.mark + 1 := s.size_log_entered call
    refine (ripened_advances hb h.entered rfl hsize).bind fun r hr => ?_
    obtain ⟨v, t⟩ := r
    have hforward : s.pos ≤ t.pos := hr.forward
    have hwithin : t.pos ≤ f.input.size := hr.sound.within
    have haccount : B.accounts (Account.ofRule f call.rule s.pos v.isNone t.account) :=
      B.rule hr.sound.account
    refine ⟨fun hv => ?_, ?_, ?_, h.frame, ?_, ?_, B.append h.account haccount⟩
    · subst hv
      rfl
    · show s.pos ≤ if v.isSome then t.pos else s.pos
      split <;> omega
    · have hlog := hr.log
      rw [hsize] at hlog
      have hle : s.memo.log.size ≤ t.memo.log.size := Nat.le_of_succ_le hlog
      cases keep <;> exact hle
    · show (if v.isSome then t.pos else s.pos) ≤ f.input.size
      split
      · exact hwithin
      · exact h.within
    · cases keep with
      | true => exact hr.sound.table.set_done haccount fun _ => ⟨hforward, hwithin⟩
      | false => exact hr.sound.table.erase

end Table

/-- **At any depth, the application of a rule advances.** -/
theorem applyDepth_advances (keep : Bool) (registry : Registry) (limit depth : Nat) :
    (applyDepth (memoized keep) registry limit depth).Advances B := by
  induction depth with
  | zero => exact fun _ _ _ _ _ _ _ => .fatal
  | succ depth ih =>
    intro f d o r args s h
    exact memoized_advances (fun _ h' => runBody_advances ih h') h

end Packrat
