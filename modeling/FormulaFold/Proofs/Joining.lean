import FormulaFold.Proofs.Computed
import FormulaFold.Proofs.FormGives

/-! # Joined texts

`CONCATENATE` joins adjacent constants ahead of the run.  `Joins` says which arguments are left
after that, and `JoinGives` what the whole call comes to (`joinGives_concatenated`).
-/
namespace FormulaFold

variable {site : Site}

theorem exists_of_kept? {o : Outcome} {r : Except Failure Value}
    (h : site.kept? node r = some o) : ∃ v, r = .ok v ∧ o = site.keep node v := by
  unfold Site.kept? at h
  split at h
  · cases h
  · split at h
    · cases h
      exact ⟨_, rfl, rfl⟩
    · cases h
  · cases h
    exact ⟨_, rfl, rfl⟩

/-- Arguments of `CONCATENATE` and those that are left when runs of constants are joined. -/
inductive Joins (site : Site) (node : Expr) : List Outcome → List Expr → Prop
  | nil : Joins site node [] []
  | left {o : Outcome} {os : List Outcome} {xs : List Expr} (h : Joins site node os xs) :
      Joins site node (o :: os) (o.expr :: xs)
  | joined {run os : List Outcome} {o : Outcome} {xs : List Expr}
      (hconst : ∀ o ∈ run, o.isConstant = true)
      (hkept : site.kept? node
        (site.engine.call Builtin.concatenate.name (Outcome.values run)) = some o)
      (h : Joins site node os xs) : Joins site node (run ++ os) (o.expr :: xs)

/-- What `CONCATENATE` comes to. -/
inductive JoinGives (site : Site) (node : Expr) (fn : String) (t : DataType) (os : List Outcome) :
    Outcome → Prop
  | computed {v : Value} {t' : DataType} (hconst : ∀ o ∈ os, o.isConstant = true)
      (hv : site.engine.call Builtin.concatenate.name (Outcome.values os) = .ok v) :
      JoinGives site node fn t os (.known (site.engine.adjust v) t')
  | left {xs : List Expr} (h : Joins site node os xs) :
      JoinGives site node fn t os (.ofExpr (.call fn (xs.map some) t))

theorem joins_append_map (h : Joins site node os xs) (run : List Outcome) :
    Joins site node (run ++ os) (run.map (·.expr) ++ xs) := by
  induction run with
  | nil => exact h
  | cons o run ih => exact .left ih

theorem joins_flushed (h : Joins site node os xs) (hrun : ∀ o ∈ run, o.isConstant = true)
    (sole : Bool) : Joins site node (run ++ os) ((site.flushed node sole run).1 ++ xs) := by
  unfold Site.flushed
  split
  · split
    · exact .joined hrun ‹_› h
    · exact joins_append_map h run
  · exact joins_append_map h run

theorem joins_merged (hrun : ∀ o ∈ run, o.isConstant = true) (sole : Bool) :
    Joins site node (run ++ os) (site.merged node sole run os).1 := by
  induction os generalizing run with
  | nil =>
    have h : Joins site node (run ++ []) ((site.flushed node sole run).1 ++ []) :=
      joins_flushed .nil hrun sole
    rw [append_nil (site.flushed node sole run).1] at h
    exact h
  | cons o rest ih =>
    unfold Site.merged
    split
    · rw [show run ++ o :: rest = run ++ [o] ++ rest by simp]
      refine ih fun x hx => ?_
      rcases mem_append.mp hx with hx | hx
      · exact hrun x hx
      · rwa [mem_singleton.mp hx]
    · have hrest : Joins site node ([] ++ rest) (site.merged node sole [] rest).1 := ih (by simp)
      exact joins_flushed (.left hrest) hrun sole

theorem merged_of_isConstant (hos : ∀ o ∈ os, o.isConstant = true) (sole : Bool) :
    site.merged node sole run os = site.flushed node sole (run ++ os) := by
  induction os generalizing run with
  | nil => rw [append_nil, Site.merged]
  | cons o rest ih =>
    have ho := forall_mem_cons.mp hos
    rw [Site.merged, if_pos ho.1, ih ho.2, List.append_assoc]
    rfl

theorem exists_of_flushed {sole : Bool} {e : Expr} (h : site.flushed node sole run = ([e], true)) :
    ∃ o, site.kept? node (site.engine.call Builtin.concatenate.name (Outcome.values run)) = some o ∧
      e = o.expr := by
  unfold Site.flushed at h
  split at h
  · split at h
    · cases h
      exact ⟨_, ‹_›, rfl⟩
    · exact absurd (congrArg Prod.snd h) (by simp)
  · exact absurd (congrArg Prod.snd h) (by simp)

theorem joinGives_concatenated (fn : String) (t : DataType) (os : List Outcome) :
    JoinGives site node fn t os (site.concatenated node fn t os) := by
  unfold Site.concatenated
  split
  · rename_i hempty
    obtain rfl : os = [] := isEmpty_iff.mp hempty
    have hcall : site.engine.call Builtin.concatenate.name (Outcome.values []) =
        .ok (.text "") := rfl
    exact .computed (by simp) hcall
  · dsimp only
    split
    · rename_i e hmerged hjoined
      rw [and_eq_true] at hjoined
      have hconst : ∀ o ∈ os, o.isConstant = true := by simpa using hjoined.2
      have hflushed : site.flushed node (os.length == 1) os = ([e], true) := by
        rw [← nil_append os, ← merged_of_isConstant hconst, nil_append]
        exact Prod.ext hmerged hjoined.1
      obtain ⟨o, hkept, rfl⟩ := exists_of_flushed hflushed
      obtain ⟨v, hv, rfl⟩ := exists_of_kept? hkept
      exact .computed hconst hv
    · have hjoins : Joins site node ([] ++ os) (site.merged node (os.length == 1) [] os).1 :=
        joins_merged (by simp) _
      exact .left hjoins

end FormulaFold
