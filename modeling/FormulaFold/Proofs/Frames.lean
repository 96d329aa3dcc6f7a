import FormulaFold.Proofs.Parts

/-! # What a walk leaves as it was

A walk changes little of its state.  Names that it binds are released again and cells that it
marks are unmarked, whether it succeeds or not; what is remembered of a cell stays remembered,
of a marked cell with a formula nothing is learned, and no refusal is taken back
(`WalkState.Grows`).  `Walk.Frames` says this of an action, together with the faults that it may
stop at: it never finds a cell to have two values, never leaves names bound, and stops at an unbound
name only if the formula refers to one.
-/
namespace FormulaFold

variable {α β : Type}

namespace Memo

/-- Whatever `m` remembers, `m'` remembers too. -/
def Within (m m' : Memo) : Prop := ∀ a c, m.find? a = some c → m'.find? a = some c

theorem Within.refl (m : Memo) : m.Within m := fun _ _ h => h

theorem Within.trans {m₁ m₂ m₃ : Memo} (h : m₁.Within m₂) (h' : m₂.Within m₃) :
    m₁.Within m₃ := fun a c hc => h' a c (h a c hc)

theorem find?_set_self (m : Memo) (a : Address) (c : Constant) :
    (m.set a c).find? a = some c := by
  simp [set, find?]

theorem find?_set_of_ne (m : Memo) (c : Constant) (h : a' ≠ a) :
    (m.set a c).find? a' = m.find? a' := by
  have hfilter : (m.filter fun entry => entry.1 ≠ a).lookup a' = m.lookup a' := by
    induction m with
    | nil => rfl
    | cons entry m ih =>
      obtain ⟨a'', c''⟩ := entry
      by_cases ha : a'' = a
      · have hne : (a' == a'') = false := by simpa [ha] using h
        simp only [filter_cons, ha, ne_eq, not_true_eq_false, decide_false]
        rw [← ha, lookup_cons, hne]
        simpa [ha] using ih
      · simp only [filter_cons, ne_eq, ha, not_false_eq_true, decide_true, if_true,
          lookup_cons]
        split
        · rfl
        · simpa using ih
  have hne : (a' == a) = false := by simpa using h
  rw [set, find?, find?, lookup_cons, hne]
  exact hfilter

/-- Remembering a constant of a cell of which nothing is remembered loses nothing. -/
theorem within_set {m : Memo} (c : Constant) (h : m.find? a = none) : m.Within (m.set a c) := by
  intro a' c' h'
  by_cases ha : a' = a
  · rw [ha, h] at h'
    cases h'
  · rwa [find?_set_of_ne m c ha]

end Memo

/-- Whether the fault is one that walking a formula can stop at.  An unbound name is not among
them, since it depends on the names around the formula. -/
def Fault.isRaised : Fault → Bool
  | complaint .. | children _ | missing | tooDeep | bindings (.arity ..) => true
  | computing _ cause | failed cause => !cause.expected
  | bindings _ | conflict .. | leftover .. => false

/-- The faults of a walk; under the promise that all names are bound, an unbound name is none of
them. -/
def Fault.Allowed (bound : Prop) (f : Fault) : Prop :=
  f.isRaised = true ∨ (∃ name, f = .bindings (.notBound name)) ∧ ¬bound

/-- How a walk may change its state; `E` is what it keeps of the memory beside. -/
structure WalkState.Grows (book : Workbook) (E : Memo → Prop) (s s' : WalkState) : Prop where
  bindings : s'.bindings = s.bindings
  active : s'.active = s.active
  memo : s.memo.Within s'.memo
  marked : ∀ a ∈ s.active, (book.get a).formula.isSome →
    s'.memo.find? a = s.memo.find? a
  earned : E s.memo → E s'.memo
  refused : s.stats.refused ≤ s'.stats.refused

namespace WalkState.Grows

variable {E : Memo → Prop} {s : WalkState}

theorem of_core (hm : s'.memo = s.memo) (ha : s'.active = s.active)
    (hb : s'.bindings = s.bindings) (hr : s.stats.refused ≤ s'.stats.refused) :
    s.Grows book E s' :=
  ⟨hb, ha, hm ▸ .refl _, fun _ _ _ => by rw [hm], fun h => hm ▸ h, hr⟩

theorem refl (s : WalkState) : s.Grows book E s := of_core rfl rfl rfl (Nat.le_refl _)

theorem trans (h : s.Grows book E s') (h' : s'.Grows book E s'') : s.Grows book E s'' where
  bindings := h'.bindings.trans h.bindings
  active := h'.active.trans h.active
  memo := h.memo.trans h'.memo
  marked a ha hf := (h'.marked a (h.active ▸ ha) hf).trans (h.marked a ha hf)
  earned he := h'.earned (h.earned he)
  refused := Nat.le_trans h.refused h'.refused

end WalkState.Grows

namespace Walk

/-- What is left as it was by a run of `x` from `s`. -/
def FramesAt (book : Workbook) (E : Memo → Prop) (bound : Prop) (s : WalkState)
    (x : Walk α) : Prop :=
  match x s with
  | .ok _ s' => s.Grows book E s'
  | .error f s' => s.Grows book E s' ∧ f.Allowed bound

/-- What is left as it was by every run of `x` under the given bindings. -/
def Frames (book : Workbook) (E : Memo → Prop) (bound : Prop) (b : Bindings) (x : Walk α) : Prop :=
  ∀ s, s.bindings = b → FramesAt book E bound s x

variable {E : Memo → Prop} {bound : Prop} {s : WalkState}

theorem bind_apply (x : Walk α) (f : α → Walk β) (s : WalkState) :
    (x >>= f) s = match x s with
      | .ok a s' => f a s'
      | .error e s' => .error e s' := by
  simp only [bind, EStateM.bind]
  cases x s <;> rfl

theorem get_apply (s : WalkState) : (get : Walk WalkState) s = .ok s s := rfl

theorem FramesAt.bind {f : α → Walk β} (hx : FramesAt book E bound s x)
    (hf : ∀ a s', x s = .ok a s' → FramesAt book E bound s' (f a)) :
    FramesAt book E bound s (x >>= f) := by
  unfold FramesAt at *
  rw [bind_apply]
  cases h : x s with
  | error e s' => simpa [h] using hx
  | ok a s' =>
    simp only [h] at hx ⊢
    have hfa := hf a s' h
    cases h' : f a s' with
    | ok c s'' =>
      simp only [h'] at hfa ⊢
      exact hx.trans hfa
    | error e s'' =>
      simp only [h'] at hfa ⊢
      exact ⟨hx.trans hfa.1, hfa.2⟩

theorem FramesAt.congr (hy : FramesAt book E bound s y) (h : x s = y s) :
    FramesAt book E bound s x := by
  unfold FramesAt at hy ⊢
  rwa [h]

/-- The state that an action leaves behind, whether it succeeds or not. -/
def final (x : Walk α) (s : WalkState) : WalkState :=
  match x s with
  | .ok _ s' => s'
  | .error _ s' => s'

theorem FramesAt.final (h : FramesAt book E bound s x) :
    s.Grows book E (x.final s) := by
  unfold FramesAt at h
  unfold Walk.final
  cases hx : x s with
  | ok a s' =>
    rw [hx] at h
    exact h
  | error f s' =>
    rw [hx] at h
    exact h.1

theorem FramesAt.growth (hx : FramesAt book E bound s x)
    (h : x s = .ok a s') : s.Grows book E s' := by
  simpa [FramesAt, h] using hx

theorem frames_pure (a : α) : Frames book E bound b (pure a : Walk α) :=
  fun s _ => .refl s

theorem frames_throw (hf : f.isRaised = true) :
    Frames book E bound b (throw f : Walk α) :=
  fun s _ => ⟨.refl s, .inl hf⟩

theorem Frames.bind {f : α → Walk β} (hx : Frames book E bound b x)
    (hf : ∀ a, Frames book E bound b (f a)) : Frames book E bound b (x >>= f) := by
  intro s hs
  refine (hx s hs).bind fun a s' h => hf a s' ?_
  rw [((hx s hs).growth h).bindings, hs]

theorem frames_get_bind {f : WalkState → Walk β}
    (hf : ∀ s, s.bindings = b → FramesAt book E bound s (f s)) :
    Frames book E bound b (get >>= f) :=
  fun s hs => hf s hs

theorem frames_tally {f : Stats → Stats} (hf : ∀ c : Stats, c.refused ≤ (f c).refused) :
    Frames book E bound b (tally f) :=
  fun s _ => .of_core rfl rfl rfl (hf s.stats)

theorem frames_record (e : Event) : Frames book E bound b (record e) :=
  fun _ _ => .of_core rfl rfl rfl (Nat.le_refl _)

/-! ## Scopes -/

/-- The state with other names bound. -/
def under (b : Bindings) (s : WalkState) : WalkState := { s with bindings := b }

/-- Running `x` with other names bound, and binding those of before again. -/
def within (b : Bindings) (x : Walk α) : Walk α := fun s =>
  match x (under b s) with
  | .ok a s' => .ok a (under s.bindings s')
  | .error f s' => .error f (under s.bindings s')

theorem within_ok (h : within next x s = .ok a s') :
    ∃ t, x (under next s) = .ok a t ∧ s' = under s.bindings t := by
  unfold within at h
  cases h' : x (under next s) with
  | ok a' t =>
    rw [h'] at h
    cases h
    exact ⟨t, rfl, rfl⟩
  | error f t =>
    rw [h'] at h
    cases h

theorem framesAt_within (hx : FramesAt book E bound (under next s) x) :
    FramesAt book E bound s (within next x) := by
  unfold FramesAt within at *
  cases h : x (under next s) with
  | ok a s' =>
    simp only [h] at hx ⊢
    exact ⟨rfl, hx.active, hx.memo, hx.marked, hx.earned, hx.refused⟩
  | error f s' =>
    simp only [h] at hx ⊢
    exact ⟨⟨rfl, hx.1.active, hx.1.memo, hx.1.marked, hx.1.earned, hx.1.refused⟩, hx.2⟩

theorem naming_apply (x : Naming α) (s : WalkState) : naming x s =
    match x s.bindings with
    | .ok a b => .ok a (under b s)
    | .error e b => .error (.bindings e) (under b s) := by
  rw [naming, bind_apply, get_apply]
  dsimp only
  cases x s.bindings <;> rfl

theorem releasing_apply (hrel : Naming.release scope next = .ok () s.bindings)
    (hx : FramesAt book E bound (under next s) x) :
    releasing scope x (under next s) = within next x s := by
  have hrelease (s' : WalkState) (h : (under next s).Grows book E s') :
      naming (.release scope) s' = .ok () (under s.bindings s') := by
    have hb : s'.bindings = next := h.bindings
    simp only [naming_apply, hb, hrel]
  unfold FramesAt at hx
  unfold releasing within
  cases h : x (under next s) with
  | ok a s' =>
    simp only [h] at hx ⊢
    rw [bind_apply, hrelease s' hx]
    rfl
  | error f s' =>
    simp only [h] at hx ⊢
    rw [bind_apply, hrelease s' hx.1]
    rfl

end Walk

/-- What pairs bind, empty names left out, last bound first. -/
def Bindings.given (pairs : Pairs) : List Binding :=
  ((pairs.filter (·.1 ≠ "")).map fun pair => ⟨pair.1, some pair.2⟩).reverse

theorem Bindings.entries_pushAll (b : Bindings) (pairs : Pairs) :
    (b.pushAll pairs).entries = given pairs ++ b.entries := by
  induction pairs generalizing b with
  | nil => rfl
  | cons p rest ih =>
    obtain ⟨name, o⟩ := p
    unfold pushAll
    split
    · rw [ih b, given, given, List.filter_cons_of_neg (by simpa using ‹name = ""›)]
    · rw [ih, given, given, List.filter_cons_of_pos (by simpa using ‹¬name = ""›)]
      simp [push]

namespace Naming

theorem bindAll_apply (hlen : names.length = os.length) (b : Bindings) :
    bindAll names os b = .ok ⟨b.depth, (Bindings.given (names.zip os)).length⟩
      (b.pushAll (names.zip os)) := by
  have hcount : (b.pushAll (names.zip os)).depth - b.depth =
      (Bindings.given (names.zip os)).length := by
    simp [Bindings.depth, Bindings.entries_pushAll]
  rw [bindAll, if_neg (not_not.mpr hlen), ← hcount]

theorem bindAll_arity (hlen : names.length ≠ os.length) (b : Bindings) :
    bindAll names os b = .error (.arity names.length os.length) b := if_pos hlen

theorem release_apply (scope : Scope) (b : Bindings) : release scope b =
    if b.depth = scope.depth + scope.count then .ok () ⟨b.entries.drop scope.count⟩
    else .error (.unbalanced scope.count scope.depth b.depth) b := by
  unfold release drop
  by_cases h : b.depth = scope.depth + scope.count
  · rw [if_neg (not_not.mpr h), if_neg (by omega), if_neg (by omega), if_pos h]
    rfl
  · rw [if_pos h, if_neg h]

/-- A scope is released from names that were bound on top. -/
theorem release_top {top : List Binding} (h : next.entries = top ++ b.entries) :
    release ⟨b.depth, top.length⟩ next = .ok () b := by
  have hdepth : next.depth = b.depth + top.length := by
    simp [Bindings.depth, h, Nat.add_comm]
  rw [release_apply, if_pos hdepth, h, List.drop_left]

end Naming

namespace Walk

variable {E : Memo → Prop} {bound : Prop} {s : WalkState}

theorem binding_apply (hx : Frames book E bound (b.push name o) x) (hs : s.bindings = b) :
    binding name o x s = within (b.push name o) x s := by
  subst hs
  have hrelease : Naming.release ⟨s.bindings.depth, 1⟩ (s.bindings.push name o) =
      .ok () s.bindings :=
    @Naming.release_top _ _ [⟨name, o⟩] rfl
  rw [← releasing_apply hrelease (hx _ rfl)]
  cases o <;> rfl

theorem bindingAll_apply (hlen : names.length = os.length)
    (hx : Frames book E bound (b.pushAll (names.zip os)) x) (hs : s.bindings = b) :
    bindingAll names os x s = within (b.pushAll (names.zip os)) x s := by
  subst hs
  rw [← releasing_apply (Naming.release_top (s.bindings.entries_pushAll (names.zip os))) (hx _ rfl)]
  simp only [bindingAll, bind_apply, naming_apply, Naming.bindAll_apply hlen]

theorem bindingAll_arity (x : Walk α) (hlen : names.length ≠ os.length) :
    bindingAll names os x s = .error (.bindings (.arity names.length os.length)) s := by
  simp only [bindingAll, bind_apply, naming_apply, Naming.bindAll_arity hlen]
  rfl

theorem naming_lookup (hs : s.bindings = b) (name : String) : naming (.lookup name) s =
    match b.lookup name with
    | .ok o => .ok o s
    | .error e => .error (.bindings e) s := by
  subst hs
  rw [naming_apply, Naming.lookup]
  cases s.bindings.lookup name <;> rfl

theorem isolated_apply (x : Walk α) (s : WalkState) :
    isolated x s = within .empty x s := by
  simp only [isolated, bind_apply, get_apply]
  rfl

theorem marking_apply (a : Address) (x : Walk α) (s : WalkState) :
    marking a x s = match x (s.mark a) with
      | .ok r s' => .ok r (s'.unmark a)
      | .error f s' => .error f (s'.unmark a) := rfl

theorem marking_ok (h : marking a x s = .ok r s') :
    ∃ t, x (s.mark a) = .ok r t ∧ s' = t.unmark a := by
  rw [marking_apply] at h
  cases h' : x (s.mark a) with
  | ok r' t =>
    rw [h'] at h
    cases h
    exact ⟨t, rfl, rfl⟩
  | error f t =>
    rw [h'] at h
    cases h

theorem growth_unmark (ha : a ∉ s.active) (h : (s.mark a).Grows book E s') :
    s.Grows book E (s'.unmark a) where
  bindings := h.bindings
  active := by
    have hfilter : s.active.filter (· ≠ a) = s.active :=
      filter_eq_self.mpr fun c hc => by
        simpa using fun hca : c = a => ha (hca ▸ hc)
    simp only [WalkState.unmark, h.active, WalkState.mark, filter_cons]
    simpa using hfilter
  memo := h.memo
  marked c hc := h.marked c (mem_cons_of_mem _ hc)
  earned := h.earned
  refused := h.refused

/-- Marking a cell that was not marked leaves the marks as they were. -/
theorem framesAt_marking (ha : a ∉ s.active)
    (hx : FramesAt book E bound (s.mark a) x) : FramesAt book E bound s (marking a x) := by
  unfold FramesAt at hx ⊢
  rw [marking_apply]
  cases h : x (s.mark a) with
  | ok r s' =>
    simp only [h] at hx ⊢
    exact growth_unmark ha hx
  | error f s' =>
    simp only [h] at hx ⊢
    exact ⟨growth_unmark ha hx.1, hx.2⟩

/-- Of a marked cell with a formula nothing is learned. -/
theorem find?_marking (hf : (book.get a).formula.isSome)
    (hx : FramesAt book E bound (s.mark a) x) (h : marking a x s = .ok r s') :
    s'.memo.find? a = s.memo.find? a := by
  obtain ⟨t, ht, rfl⟩ := marking_ok h
  exact (hx.growth ht).marked a mem_cons_self hf

theorem frames_isolated (hx : Frames book E bound .empty x) :
    Frames book E bound b (isolated x) :=
  fun s _ => (framesAt_within (hx _ rfl)).congr (isolated_apply x s)

end Walk
end FormulaFold
