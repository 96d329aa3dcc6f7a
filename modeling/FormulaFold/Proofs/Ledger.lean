import FormulaFold.Proofs.Frames
import Mathlib.Data.List.Pairwise

/-! # Scopes are released in turn

A scope only remembers how many names it bound above which depth, and releasing it compares
lengths.  `Ledger` keeps a record beside the bindings: scopes are numbered as they are opened, and
the names and values that a use is given are recorded with the number of its scope, until that scope
is released.  Names are bound, looked up and released in any order, and a release may be tried out
of turn, but no scope is released twice (`Ledger.Reached`).

**Then the record tells what is bound.  A scope that is released takes away just the names that it
bound, and it cannot be released as long as a name that was bound after it is still bound; a use
that fails leaves the bindings as they were, and a look-up finds the name that was bound last**
(`scopes_released_in_turn`).
-/
namespace FormulaFold.Bindings

open List

/-- What bindings are used for.  Scopes are numbered in the order in which they are opened. -/
inductive Use where
  | bind (name : String) (o : Outcome)
  | hide (name : String)
  | bindAll (names : List String) (os : List Outcome)
  | lookup (name : String)
  | release (index : Nat)

namespace Use

/-- The names and values that a use is given to bind, last bound first. -/
def given : Use → List Binding
  | .bind name o => [⟨name, some o⟩]
  | .hide name => [⟨name, none⟩]
  | .bindAll names os => Bindings.given (names.zip os)
  | .lookup _ | .release _ => []

/-- The number of the scope that a use releases. -/
def ends? : Use → Option Nat
  | .release index => some index
  | .bind .. | .hide _ | .bindAll .. | .lookup _ => none

/-- What a use does to the bindings when the given scopes were opened before, and the scope that it
opens. -/
def action (opened : List Scope) : Use → Naming (Option Scope)
  | .bind name o => some <$> Naming.bind name o
  | .hide name => some <$> Naming.hide name
  | .bindAll names os => some <$> Naming.bindAll names os
  | .lookup name => (fun _ => none) <$> Naming.lookup name
  | .release index => match opened[index]? with
    | some scope => (fun _ => none) <$> Naming.release scope
    | none => pure none

end Use

/-- Bindings with a record of how they were used. -/
structure Ledger where
  bindings : Bindings
  /-- The names that were bound and not released, each after the number of its scope, last bound
  first. -/
  live : List (Nat × Binding)
  /-- Every scope that was ever opened; its place in this list is its number. -/
  opened : List Scope
  /-- The numbers of the scopes that were released. -/
  released : List Nat

namespace Ledger

/-- Nothing was bound yet. -/
def initial : Ledger := ⟨.empty, [], [], []⟩

/-- The record after a use.  One that fails is not recorded, whatever it does to the bindings. -/
def after (l : Ledger) (use : Use) : Ledger :=
  match use.action l.opened l.bindings with
  | .ok scope b =>
    { bindings := b
      live := use.given.map (Prod.mk l.opened.length) ++ l.live.filter fun x => some x.1 ≠ use.ends?
      opened := l.opened ++ scope.toList
      released := use.ends?.toList ++ l.released }
  | .error _ b => { l with bindings := b }

/-- What comes of any uses in which no scope is released before it was opened, or again once it was
released. -/
inductive Reached : Ledger → Prop
  | initial : Reached initial
  | after {l : Ledger} (use : Use) : Reached l →
    (∀ i, use.ends? = some i → i < l.opened.length ∧ i ∉ l.released) → Reached (l.after use)

/-- The record tells what is bound, in the order of scopes.  Of a scope that was not released all
names are bound, and if there are any, as many are bound below them as when it was opened. -/
structure Valid (l : Ledger) : Prop where
  entries : l.live.map (·.2) = l.bindings.entries
  falling : l.live.Pairwise fun x y => y.1 ≤ x.1
  known : ∀ x ∈ l.live, x.1 < l.opened.length
  held : ∀ i scope, l.opened[i]? = some scope → i ∉ l.released →
    (l.live.filter (·.1 = i)).length = scope.count ∧
      (0 < scope.count → (l.live.filter (·.1 < i)).length = scope.depth)

variable {l next : Ledger} {scope : Scope} {i : Nat} {xs : List (Nat × Binding)}

/-! ## Names in the order of scopes -/

theorem split_falling (h : xs.Pairwise fun x y => y.1 ≤ x.1) (k : Nat) :
    xs.filter (k ≤ ·.1) ++ xs.filter (·.1 < k) = xs := by
  induction xs with
  | nil => rfl
  | cons x xs ih =>
    have hx := pairwise_cons.mp h
    by_cases hk : k ≤ x.1
    · rw [filter_cons_of_pos (by simpa using hk), filter_cons_of_neg (by simpa using hk),
        cons_append, ih hx.2]
    · have hlow : ∀ y ∈ x :: xs, y.1 < k := by
        refine forall_mem_cons.mpr ⟨by omega, fun y hy => ?_⟩
        have := hx.1 y hy
        omega
      rw [filter_eq_nil_iff.mpr fun y hy => by simpa using hlow y hy,
        filter_eq_self.mpr fun y hy => by simpa using hlow y hy, nil_append]

theorem length_eq_add (xs : List (Nat × Binding)) (i : Nat) :
    xs.length = (xs.filter (i < ·.1)).length + (xs.filter (·.1 = i)).length +
      (xs.filter (·.1 < i)).length := by
  induction xs with
  | nil => rfl
  | cons x xs ih => grind

/-! ## Uses -/

theorem map_apply {α β : Type} (f : α → β) (x : Naming α) (b : Bindings) :
    (f <$> x) b = match x b with
      | .ok a next => .ok (f a) next
      | .error e next => .error e next := by
  change EStateM.map f x b = _
  unfold EStateM.map
  cases x b <;> rfl

/-- What a use can do: fail and change nothing, open a scope for what it is given, leave all as it
is, or release a scope that is on top. -/
theorem action_cases (opened : List Scope) (use : Use) (b : Bindings) :
    (∃ e, use.action opened b = .error e b) ∨
    (∃ next, use.action opened b = .ok (some ⟨b.depth, use.given.length⟩) next ∧
      next.entries = use.given ++ b.entries ∧ use.ends? = none) ∨
    (use.action opened b = .ok none b ∧ use.given = [] ∧
      ∀ i, use.ends? = some i → opened.length ≤ i) ∨
    ∃ i scope, use = .release i ∧ opened[i]? = some scope ∧
      b.depth = scope.depth + scope.count ∧
      use.action opened b = .ok none ⟨b.entries.drop scope.count⟩ := by
  cases use with
  | bind | hide => exact .inr (.inl ⟨_, rfl, rfl, rfl⟩)
  | bindAll names os =>
    rw [Use.action, map_apply]
    by_cases hlen : names.length = os.length
    · rw [Naming.bindAll_apply hlen]
      exact .inr (.inl ⟨_, rfl, b.entries_pushAll _, rfl⟩)
    · rw [Naming.bindAll_arity hlen]
      exact .inl ⟨_, rfl⟩
  | lookup name =>
    rw [Use.action, map_apply, Naming.lookup]
    cases b.lookup name with
    | ok o => exact .inr (.inr (.inl ⟨rfl, rfl, by simp [Use.ends?]⟩))
    | error e => exact .inl ⟨e, rfl⟩
  | release i =>
    cases hscope : opened[i]? with
    | none =>
      refine .inr (.inr (.inl ⟨by simp only [Use.action, hscope]; rfl, rfl, ?_⟩))
      rintro _ ⟨⟩
      exact getElem?_eq_none_iff.mp hscope
    | some scope =>
      simp only [Use.action, hscope, map_apply, Naming.release_apply]
      by_cases hdepth : b.depth = scope.depth + scope.count
      · rw [if_pos hdepth]
        exact .inr (.inr (.inr ⟨i, scope, rfl, hscope, hdepth, rfl⟩))
      · rw [if_neg hdepth]
        exact .inl ⟨_, rfl⟩

namespace Valid

theorem length_eq (h : l.Valid) : l.live.length = l.bindings.depth := by
  rw [depth, ← h.entries, length_map]

/-- Names that are bound on top belong to the next scope. -/
theorem enter (h : l.Valid) {top : List Binding} {b : Bindings}
    (hb : b.entries = top ++ l.bindings.entries) :
    (Ledger.mk b (top.map (Prod.mk l.opened.length) ++ l.live)
      (l.opened ++ [⟨l.bindings.depth, top.length⟩]) l.released).Valid := by
  have hnew {x : Nat × Binding} (hx : x ∈ top.map (Prod.mk l.opened.length)) :
      x.1 = l.opened.length := by
    obtain ⟨_, _, rfl⟩ := mem_map.mp hx
    rfl
  constructor
  case entries =>
    rw [map_append, h.entries, hb, map_map]
    exact congrArg (· ++ _) (map_id top)
  case falling =>
    refine pairwise_append.mpr ⟨pairwise_of_forall_mem_list fun x hx y hy => ?_,
      h.falling, fun x hx y hy => ?_⟩
    · exact Nat.le_of_eq ((hnew hy).trans (hnew hx).symm)
    · rw [hnew hx]
      exact Nat.le_of_lt (h.known y hy)
  case known =>
    rw [length_append]
    refine forall_mem_append.mpr ⟨fun x hx => ?_, fun x hx => ?_⟩
    · rw [hnew hx]
      exact Nat.lt_succ_self _
    · exact Nat.lt_succ_of_lt (h.known x hx)
  case held =>
    intro i scope hs hi
    rw [filter_append, filter_append, length_append, length_append]
    by_cases hlt : i < l.opened.length
    · rw [getElem?_append_left hlt] at hs
      have hnone (p : Nat × Binding → Bool) (hp : ∀ x, p x = true → x.1 ≤ i) :
          (top.map (Prod.mk l.opened.length)).filter p = [] :=
        filter_eq_nil_iff.mpr fun x hx hpx => by
          have := hp x hpx
          have := hnew hx
          omega
      rw [hnone _ (by simp), hnone _ (by simpa using fun _ _ => Nat.le_of_lt), length_nil,
        Nat.zero_add, Nat.zero_add]
      exact h.held i scope hs hi
    · obtain rfl : i = l.opened.length := by
        have := (List.getElem?_eq_some_iff.mp hs).1
        rw [length_append, length_singleton] at this
        omega
      rw [getElem?_concat_length] at hs
      cases hs
      rw [filter_eq_self.mpr fun x hx => by simpa using hnew hx,
        filter_eq_nil_iff.mpr fun x hx => by simpa using Nat.ne_of_lt (h.known x hx),
        filter_eq_nil_iff.mpr fun x hx => by simpa using Nat.le_of_eq (hnew hx).symm,
        filter_eq_self.mpr fun x hx => by simpa using h.known x hx]
      simp [h.length_eq]

/-- A scope can be released if nothing is bound above its names. -/
theorem depth_eq_iff (h : l.Valid) (hs : l.opened[i]? = some scope) (hi : i ∉ l.released)
    (hcount : 0 < scope.count) :
    l.bindings.depth = scope.depth + scope.count ↔ ∀ x ∈ l.live, x.1 ≤ i := by
  obtain ⟨hown, hbelow⟩ := h.held i scope hs hi
  have habove : (l.live.filter (i < ·.1)).length = 0 ↔ ∀ x ∈ l.live, x.1 ≤ i := by
    simp [filter_eq_nil_iff]
  have hsplit := length_eq_add l.live i
  rw [← habove, ← h.length_eq, hsplit, hown, hbelow hcount]
  omega

/-- What is left when a scope is released are the names that others bound. -/
theorem drop_entries (h : l.Valid) (hs : l.opened[i]? = some scope) (hi : i ∉ l.released)
    (hdepth : l.bindings.depth = scope.depth + scope.count) :
    l.bindings.entries.drop scope.count = (l.live.filter (·.1 ≠ i)).map (·.2) := by
  have hown := (h.held i scope hs hi).1
  rw [← h.entries, ← map_drop]
  congr 1
  rcases Nat.eq_zero_or_pos scope.count with hzero | hcount
  · rw [hzero, length_eq_zero_iff, filter_eq_nil_iff] at hown
    rw [hzero, drop_zero, filter_eq_self.mpr fun x hx => by simpa using hown x hx]
  -- Nothing is bound above the scope, so its names are those on top.
  · have habove := (h.depth_eq_iff hs hi hcount).mp hdepth
    have hupper : l.live.filter (i ≤ ·.1) = l.live.filter (·.1 = i) :=
      filter_congr fun x hx => decide_eq_decide.mpr
        ⟨fun hle => Nat.le_antisymm (habove x hx) hle, fun heq => Nat.le_of_eq heq.symm⟩
    have hlower : l.live.filter (·.1 < i) = l.live.filter (·.1 ≠ i) :=
      filter_congr fun x hx => decide_eq_decide.mpr
        ⟨Nat.ne_of_lt, Nat.lt_of_le_of_ne (habove x hx)⟩
    have hsplit := split_falling h.falling i
    rw [hupper, hlower] at hsplit
    have hdrop : (l.live.filter (·.1 = i) ++ l.live.filter (·.1 ≠ i)).drop scope.count =
        l.live.filter (·.1 ≠ i) := drop_left' hown
    rwa [hsplit] at hdrop

theorem leave (h : l.Valid) (hs : l.opened[i]? = some scope) (hi : i ∉ l.released)
    (hdepth : l.bindings.depth = scope.depth + scope.count) :
    (Ledger.mk ⟨l.bindings.entries.drop scope.count⟩ (l.live.filter (·.1 ≠ i)) l.opened
      (i :: l.released)).Valid := by
  refine ⟨(h.drop_entries hs hi hdepth).symm, h.falling.sublist filter_sublist,
    fun x hx => h.known x (mem_of_mem_filter hx), fun j t ht hj => ?_⟩
  have hij : j ≠ i ∧ j ∉ l.released := by simpa using hj
  obtain ⟨hown, hbelow⟩ := h.held j t ht hij.2
  have hkeep (p : Nat × Binding → Bool) (hp : ∀ x ∈ l.live, p x = true → x.1 ≠ i) :
      (l.live.filter (·.1 ≠ i)).filter p = l.live.filter p := by
    rw [filter_filter]
    refine filter_congr fun x hx => ?_
    cases hpx : p x with
    | false => rfl
    | true => simpa using hp x hx hpx
  rw [hkeep _ (by simpa using fun _ _ _ heq => heq ▸ hij.1)]
  refine ⟨hown, fun hcount => ?_⟩
  rw [hkeep _ ?_]
  · exact hbelow hcount
  -- A name of the scope below those of another one could not have been released.
  · rintro x hx hlt rfl
    have hpos : 0 < scope.count := by
      rw [← (h.held x.1 scope hs hi).1]
      exact length_pos_of_mem (mem_filter.mpr ⟨hx, decide_eq_true rfl⟩)
    obtain ⟨y, hy⟩ := exists_mem_of_length_pos (hown.symm ▸ hcount)
    obtain ⟨hy, hyj⟩ := mem_filter.mp hy
    have hle := (h.depth_eq_iff hs hi hpos).mp hdepth y hy
    rw [of_decide_eq_true hyj] at hle
    exact absurd (of_decide_eq_true hlt) (Nat.not_lt.mpr hle)

/-! ## All uses -/

theorem after (h : l.Valid) {use : Use}
    (hnew : ∀ i, use.ends? = some i → i < l.opened.length ∧ i ∉ l.released) :
    (l.after use).Valid := by
  unfold Ledger.after
  rcases action_cases l.opened use l.bindings with
    ⟨e, hact⟩ | ⟨b, hact, hb, hends⟩ | ⟨hact, hgiven, hends⟩ | ⟨i, scope, rfl, hs, hdepth, hact⟩
  · rw [hact]
    exact h
  · rw [hact]
    simpa [hends] using h.enter hb
  · have hnone : use.ends? = none := by
      cases hi : use.ends? with
      | none => rfl
      | some i => exact absurd (hends i hi) (Nat.not_le.mpr (hnew i hi).1)
    rw [hact]
    simpa [hgiven, hnone] using h
  · rw [hact]
    simpa [Use.given, Use.ends?] using h.leave hs (hnew i rfl).2 hdepth

/-- A look-up finds what was bound last. -/
theorem find?_eq (h : l.Valid) (name : String) : l.bindings.entries.find? (·.name = name) =
    (l.live.find? (·.2.name = name)).map (·.2) := by
  rw [← h.entries, find?_map]
  rfl

theorem lookup (h : l.Valid) (name : String) (o : Option Outcome) :
    l.bindings.lookup name = .ok o ↔ ∃ newer k older,
      l.live = newer ++ (k, ⟨name, o⟩) :: older ∧ ∀ x ∈ newer, x.2.name ≠ name := by
  unfold Bindings.lookup
  rw [h.find?_eq]
  constructor
  · intro hlookup
    cases hfind : l.live.find? (·.2.name = name) with
    | none =>
      rw [hfind] at hlookup
      cases hlookup
    | some x =>
      rw [hfind] at hlookup
      cases hlookup
      obtain ⟨hname, newer, older, hlive, hnewer⟩ := find?_eq_some_iff_append.mp hfind
      obtain rfl : x.2.name = name := of_decide_eq_true hname
      exact ⟨newer, x.1, older, hlive, by simpa using hnewer⟩
  · rintro ⟨newer, k, older, hlive, hnewer⟩
    have hfind : l.live.find? (·.2.name = name) = some (k, ⟨name, o⟩) :=
      find?_eq_some_iff_append.mpr
        ⟨decide_eq_true rfl, newer, older, hlive, by simpa using hnewer⟩
    rw [hfind]
    rfl

theorem lookup_fails (h : l.Valid) (name : String) :
    (∃ e, l.bindings.lookup name = .error e) ↔ ∀ x ∈ l.live, x.2.name ≠ name := by
  unfold Bindings.lookup
  rw [h.find?_eq]
  cases hfind : l.live.find? (·.2.name = name) with
  | none => simpa using hfind
  | some x =>
    have hname : x.2.name = name := by simpa using find?_some hfind
    simpa using ⟨_, _, mem_of_find?_eq_some hfind, hname⟩

end Valid

theorem Reached.valid (h : l.Reached) : l.Valid := by
  induction h with
  | initial => exact ⟨rfl, .nil, by simp [Ledger.initial], by simp [Ledger.initial]⟩
  | after use _ hnew ih => exact ih.after hnew

end Ledger

open Ledger

/-- **Scopes are released in turn.**  Whatever bindings were used for, as long as no scope was
released twice:
* the bindings are the names that were bound and not released, with the values that they were given;
* a scope that is released takes away just the names that it bound, and all of them were still
  bound;
* a scope that bound a name cannot be released just if a name that was bound after it is still
  bound;
* a use that fails leaves the bindings as they were;
* a look-up finds what was bound last of the names still bound, and fails if there is none. -/
theorem scopes_released_in_turn {l : Ledger} (h : l.Reached) :
    l.bindings.entries = l.live.map (·.2) ∧
    (∀ i scope, l.opened[i]? = some scope → i ∉ l.released →
      (l.live.filter (·.1 = i)).length = scope.count ∧
      (∀ b, Naming.release scope l.bindings = .ok () b →
        b.entries = (l.live.filter (·.1 ≠ i)).map (·.2)) ∧
      (0 < scope.count →
        ((∃ e b, Naming.release scope l.bindings = .error e b) ↔ ∃ x ∈ l.live, i < x.1))) ∧
    (∀ (use : Use) e b, use.action l.opened l.bindings = .error e b → b = l.bindings) ∧
    ∀ name,
      (∀ o, Naming.lookup name l.bindings = .ok o l.bindings ↔ ∃ newer k older,
        l.live = newer ++ (k, ⟨name, o⟩) :: older ∧ ∀ x ∈ newer, x.2.name ≠ name) ∧
      ((∃ e, Naming.lookup name l.bindings = .error e l.bindings) ↔
        ∀ x ∈ l.live, x.2.name ≠ name) := by
  have hvalid := h.valid
  refine ⟨hvalid.entries.symm, fun i scope hs hi => ⟨(hvalid.held i scope hs hi).1, ?_⟩,
    fun use e b he => ?_, fun name => ⟨fun o => ?_, ?_⟩⟩
  · rw [Naming.release_apply]
    by_cases hdepth : l.bindings.depth = scope.depth + scope.count
    · rw [if_pos hdepth]
      refine ⟨?_, fun hcount => iff_of_false (by simp) ?_⟩
      · rintro b ⟨⟩
        exact hvalid.drop_entries hs hi hdepth
      · rintro ⟨x, hx, hlt⟩
        have := (hvalid.depth_eq_iff hs hi hcount).mp hdepth x hx
        omega
    · rw [if_neg hdepth]
      refine ⟨by simp, fun hcount => iff_of_true ⟨_, _, rfl⟩ ?_⟩
      by_contra hnone
      refine hdepth ((hvalid.depth_eq_iff hs hi hcount).mpr fun x hx => ?_)
      by_contra hle
      exact hnone ⟨x, hx, by omega⟩
  · rcases action_cases l.opened use l.bindings with
      ⟨_, hact⟩ | ⟨_, hact, _⟩ | ⟨hact, _⟩ | ⟨_, _, _, _, _, hact⟩
    · cases he.symm.trans hact
      rfl
    all_goals cases he.symm.trans hact
  · rw [← hvalid.lookup, Naming.lookup]
    cases l.bindings.lookup name <;> simp
  · rw [← hvalid.lookup_fails, Naming.lookup]
    cases l.bindings.lookup name <;> simp

/-- Three names, of which an empty one is left out, and a release that is tried too early. -/
theorem scopes_released_in_turn_nested :
    let l := ((initial.after (.bindAll ["a", "", "x"] [.blank, .blank, .blank])).after
      (.hide "a")).after (.release 0)
    l.Reached ∧ l.live.map (·.1) = [1, 0, 0] ∧
      (∃ e b, Naming.release ⟨0, 2⟩ l.bindings = .error e b) ∧
      Naming.lookup "a" l.bindings = .ok none l.bindings := by
  intro l
  have hreached : l.Reached := by
    refine .after _ (.after _ (.after _ .initial ?_) ?_) ?_ <;> intro i hi
    · cases hi
    · cases hi
    · cases hi
      exact ⟨by decide, by decide⟩
  obtain ⟨-, hscopes, -, hnames⟩ := scopes_released_in_turn hreached
  refine ⟨hreached, rfl, ?_, ?_⟩
  · exact ((hscopes 0 ⟨0, 2⟩ rfl (by decide)).2.2 (by decide)).mpr ⟨_, .head _, by decide⟩
  · exact ((hnames "a").1 none).mpr ⟨[], 1, _, rfl, by simp⟩

end FormulaFold.Bindings
