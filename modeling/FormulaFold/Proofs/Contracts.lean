import FormulaFold.Proofs.Elements
import FormulaFold.Proofs.Frames

/-! # Contracts of walks

A `Walk.Contract` says what a walk may rely on and what it owes beside its frame: what it finds and
leaves in the memory.  `J.Holds A b x Q` says that `x`, started under the names `b`, keeps the frame
and, provided that `A`, keeps the contract `J` and gives a result of which `Q` holds.

Results may be owed of some walks only: of those that remember no more than the contract allows, or
of those that refuse no computation.  Whether this is so shows at the end only, while the frame has
to be kept in any case.  This is why what is known of earlier results is not assumed outright but
collected in `A` (`Holds.bind`).
-/
namespace FormulaFold

/-! ## Failures -/

section Expected

variable {α β : Type}

/-- Whether a computation fails as expected, if it fails. -/
def FailsAsExpected (r : Except Failure α) : Prop := ∀ f, r = .error f → f.expected = true

theorem FailsAsExpected.bind {k : α → Except Failure β}
    (hx : FailsAsExpected x) (hk : ∀ a, FailsAsExpected (k a)) : FailsAsExpected (x >>= k) := by
  intro f h
  cases x with
  | error g =>
    cases h
    exact hx f rfl
  | ok a => exact hk a f h

theorem failsAsExpected_pure (a : α) : FailsAsExpected (pure a) := by
  intro f h
  cases h

theorem failsAsExpected_toBool (v : Value) : FailsAsExpected v.toBool := by
  intro f h
  fun_induction Value.toBool v with
  | case7 | case9 =>
    cases h
    rfl
  | case8 _ _ _ ih => exact ih h
  | _ => cases h

theorem failsAsExpected_toText (v : Value) : FailsAsExpected v.toText := by
  intro f h
  fun_induction Value.toText v with
  | case6 _ _ _ ih => exact ih h
  | case7 =>
    cases h
    rfl
  | _ => cases h

theorem failsAsExpected_positionCell (site : Site) (fn : String) (args : Children) :
    FailsAsExpected (positionCell site fn args) := by
  intro f h
  unfold positionCell at h
  split at h
  all_goals cases h
  all_goals rfl

end Expected

/-- The failed computation that a fault comes from. -/
def Fault.cause? : Fault → Option Failure
  | computing _ cause | failed cause => some cause
  | _ => none

/-! ## Contracts -/

namespace Walk

variable {α β : Type} {E : Memo → Prop} {bound : Prop}

/-- What a walk relies on and what it owes beside its frame. -/
structure Contract (book : Workbook) (E : Memo → Prop) (bound : Prop) where
  /-- What is found and left of the marked cells and the memory. -/
  Keeps : List Address → Memo → Prop
  /-- The memories up to which results are owed. -/
  Allows : Memo → Prop
  /-- Whether results are owed only where no computation is refused. -/
  quiet : Prop
  allows_of_within : ∀ {m m'}, m.Within m' → Allows m' → Allows m

namespace Contract

variable (J : Contract book E bound)

/-- Whether a walk that leads from `s` to `s'` owes its result. -/
structure Calm (s s' : WalkState) : Prop where
  allows : J.Allows s'.memo
  refused : J.quiet → s'.stats.refused = s.stats.refused

/-- Whether an action may end like this. -/
def Ends (Q : α → Prop) : EStateM.Result Fault WalkState α → Prop
  | .ok a _ => Q a
  | .error .. => True

/-- What an action owes beside its frame when it is run from `s`. -/
def Owes (A : Prop) (s : WalkState) (x : Walk α) (Q : α → Prop) : Prop :=
  A → J.Keeps s.active s.memo → J.Calm s (x.final s) →
    J.Keeps (x.final s).active (x.final s).memo ∧ Ends Q (x s)

/-- Under the names `b`, `x` keeps its frame and, provided that `A`, the contract, and `Q` holds of
its result. -/
def Holds (A : Prop) (b : Bindings) (x : Walk α) (Q : α → Prop) : Prop :=
  ∀ s, s.bindings = b → FramesAt book E bound s x ∧ J.Owes A s x Q

variable {J} {A B : Prop} {P Q : α → Prop}

theorem Calm.split (h : J.Calm s s'') (hs : s.Grows book E s') (hs' : s'.Grows book E s'') :
    J.Calm s s' ∧ J.Calm s' s'' := by
  have hle := hs.refused
  have hle' := hs'.refused
  refine ⟨⟨J.allows_of_within hs'.memo h.allows, fun hquiet => ?_⟩,
    ⟨h.allows, fun hquiet => ?_⟩⟩
  · have heq := h.refused hquiet
    omega
  · have heq := h.refused hquiet
    omega

theorem Holds.frames (h : J.Holds A b x Q) : Frames book E bound b x := fun s hs => (h s hs).1

/-- The result of a walk that owes it. -/
theorem Holds.result (h : J.Holds A b x Q) (hok : x s = .ok a s') (hs : s.bindings = b)
    (hA : A) (hkeeps : J.Keeps s.active s.memo) (hcalm : J.Calm s s') :
    J.Keeps s'.active s'.memo ∧ Q a := by
  have howes := (h s hs).2 hA hkeeps
  simp only [Walk.final, hok] at howes
  exact howes hcalm

/-! ## Actions -/

theorem Holds.congr (h : FramesAt book E bound s y ∧ J.Owes A s y Q)
    (heq : x s = y s) : FramesAt book E bound s x ∧ J.Owes A s x Q := by
  unfold FramesAt Owes Walk.final at *
  rwa [heq]

theorem Holds.imp (h : J.Holds A b x P) (hPQ : ∀ a, A → P a → Q a) : J.Holds A b x Q := by
  intro s hs
  refine ⟨(h s hs).1, fun hA hkeeps hcalm => ?_⟩
  obtain ⟨hkeeps, hends⟩ := (h s hs).2 hA hkeeps hcalm
  refine ⟨hkeeps, ?_⟩
  generalize x s = r at hends
  cases r with
  | ok a t => exact hPQ a hA hends
  | error f t => exact hends

theorem Holds.mono (h : J.Holds A b x Q) (hBA : B → A) : J.Holds B b x Q :=
  fun s hs => ⟨(h s hs).1, fun hB => (h s hs).2 (hBA hB)⟩

/-- What holds in any case. -/
theorem Holds.any (h : J.Holds True b x Q) : J.Holds A b x Q := h.mono fun _ => trivial

theorem Holds.and (h : J.Holds A b x P) (h' : J.Holds A b x Q) :
    J.Holds A b x fun a => P a ∧ Q a := by
  intro s hs
  refine ⟨(h s hs).1, fun hA hkeeps hcalm => ?_⟩
  obtain ⟨hleaves, hends⟩ := (h s hs).2 hA hkeeps hcalm
  have hends' := ((h' s hs).2 hA hkeeps hcalm).2
  refine ⟨hleaves, ?_⟩
  generalize x s = r at hends hends'
  cases r with
  | ok a t => exact ⟨hends, hends'⟩
  | error f t => exact hends

theorem holds_pure (h : A → Q a) : J.Holds A b (pure a) Q :=
  fun s _ => ⟨.refl s, fun hA hkeeps _ => ⟨hkeeps, h hA⟩⟩

theorem holds_raise (hf : f.isRaised = true) : J.Holds A b (throw f : Walk α) Q :=
  fun s _ => ⟨⟨.refl s, .inl hf⟩, fun _ hkeeps _ => ⟨hkeeps, trivial⟩⟩

theorem final_bind {k : α → Walk β} (h : x s = .ok a s') :
    (x >>= k).final s = (k a).final s' ∧ (x >>= k) s = k a s' := by
  simp [Walk.final, bind_apply, h]

/-- **A sequence keeps the contract if its actions do.** -/
theorem Holds.bind {k : α → Walk β} {Q : β → Prop} (hx : J.Holds A b x P)
    (hk : ∀ a, J.Holds (A ∧ P a) b (k a) Q) : J.Holds A b (x >>= k) Q := by
  intro s hs
  obtain ⟨hframe, howes⟩ := hx s hs
  have hnext (a : α) (t : WalkState) (h : x s = .ok a t) : t.bindings = b :=
    (hframe.growth h).bindings.trans hs
  refine ⟨hframe.bind fun a t h => (hk a t (hnext a t h)).1, fun hA hkeeps hcalm => ?_⟩
  cases h : x s with
  | error f t =>
    have hbind : (x >>= k) s = .error f t := by rw [bind_apply, h]
    simp only [Owes, Walk.final, h, hbind] at howes hcalm ⊢
    exact howes hA hkeeps hcalm
  | ok a t =>
    obtain ⟨hfinal, hrun⟩ := final_bind (k := k) h
    obtain ⟨hframe', howes'⟩ := hk a t (hnext a t h)
    rw [hfinal] at hcalm ⊢
    rw [hrun]
    obtain ⟨hcalm, hcalm'⟩ := hcalm.split (hframe.growth h) hframe'.final
    obtain ⟨hkeeps, ha⟩ := hx.result h hs hA hkeeps hcalm
    exact howes' ⟨hA, ha⟩ hkeeps hcalm'

theorem holds_raise_bind {k : β → Walk α} (hf : f.isRaised = true) :
    J.Holds A b (throw f >>= k) Q := holds_raise hf

theorem holds_ite {c : Prop} [Decidable c] (hx : c → J.Holds A b x Q)
    (hy : ¬c → J.Holds A b y Q) : J.Holds A b (if c then x else y) Q := by
  split
  · exact hx ‹_›
  · exact hy ‹_›

theorem holds_record (e : Event) : J.Holds A b (record e) fun _ => True :=
  fun s hs => ⟨frames_record e s hs, fun _ hkeeps _ => ⟨hkeeps, trivial⟩⟩

theorem holds_tally {f : Stats → Stats} (hf : ∀ c : Stats, c.refused ≤ (f c).refused) :
    J.Holds A b (tally f) fun _ => True :=
  fun s hs => ⟨frames_tally hf s hs, fun _ hkeeps _ => ⟨hkeeps, trivial⟩⟩

/-- A refusal is counted. -/
theorem holds_refuse :
    J.Holds A b (tally fun c => { c with refused := c.refused + 1 }) fun _ => ¬J.quiet := by
  refine fun s hs => ⟨frames_tally (fun c => Nat.le_succ _) s hs, fun _ hkeeps hcalm => ?_⟩
  exact ⟨hkeeps, fun hquiet => absurd (hcalm.refused hquiet) (Nat.succ_ne_self _)⟩

/-! ## Scopes -/

theorem Holds.within (hx : J.Holds A next x Q) (s : WalkState) :
    FramesAt book E bound s (within next x) ∧ J.Owes A s (within next x) Q := by
  obtain ⟨hframe, howes⟩ := hx (under next s) rfl
  refine ⟨framesAt_within hframe, fun hA hkeeps hcalm => ?_⟩
  have howes := howes hA hkeeps
  simp only [Walk.final, Walk.within] at howes hcalm ⊢
  generalize x (under next s) = r at howes hcalm
  cases r with
  | ok a t => exact howes ⟨hcalm.allows, hcalm.refused⟩
  | error f t => exact howes ⟨hcalm.allows, hcalm.refused⟩

theorem Holds.binding (hx : J.Holds A (b.push name o) x Q) :
    J.Holds A b (binding name o x) Q :=
  fun s hs => Holds.congr (hx.within s) (binding_apply hx.frames hs)

theorem holds_bindingAll
    (hx : names.length = os.length → J.Holds A (b.pushAll (names.zip os)) x Q) :
    J.Holds A b (bindingAll names os x) fun a => names.length = os.length ∧ Q a := by
  by_cases hlen : names.length = os.length
  · refine Holds.imp (P := Q) (fun s hs => ?_) fun a _ ha => ⟨hlen, ha⟩
    exact Holds.congr ((hx hlen).within s) (bindingAll_apply hlen (hx hlen).frames hs)
  · intro s hs
    have hthrow : J.Holds A b (throw (.bindings (.arity names.length os.length)) : Walk α)
        fun a => names.length = os.length ∧ Q a := holds_raise rfl
    exact Holds.congr (hthrow s hs) (bindingAll_arity x hlen)

end Contract

end Walk

end FormulaFold
