import Mathlib.Data.List.Nodup
import Teal.Proofs.Optimizer.Passes
/-!
# The pass that merges labels

Of labels that follow one another the first stays, and every reference to the others becomes a
reference to it. The one that stays need not be in the part of a listing that a proof by induction
looks at, so what becomes of a label is stated relative to the label before the lines:
`collapse_place`.
-/

namespace Teal.Optimizer

/-! ## Replacements -/

/-- The replacement of `id` is `id'`: it is listed, or `id` has none and stays. -/
def Renamed (renames : List (LabelId × LabelId)) (id id' : LabelId) : Prop :=
  (id, id') ∈ renames ∨ id' = id ∧ id ∉ renames.map Prod.fst

theorem Renamed.cons {renames : List (LabelId × LabelId)} {id id' a b : LabelId} (hne : id ≠ a)
    (h : Renamed renames id id') : Renamed ((a, b) :: renames) id id' := by
  rcases h with h | ⟨rfl, h⟩
  · exact .inl (List.mem_cons_of_mem _ h)
  · exact .inr ⟨rfl, by simp [hne, h]⟩

theorem lookup_of_mem {pairs : List (LabelId × LabelId)} {a b : LabelId}
    (hnodup : (pairs.map Prod.fst).Nodup) (h : (a, b) ∈ pairs) : pairs.lookup a = some b := by
  induction pairs with
  | nil => cases h
  | cons pair rest ih =>
    obtain ⟨c, d⟩ := pair
    rw [List.map_cons, List.nodup_cons] at hnodup
    rcases List.mem_cons.1 h with heq | hmem
    · cases heq
      rw [List.lookup_cons_self]
    · have hne : a ≠ c := by
        rintro rfl
        exact hnodup.1 (List.mem_map.2 ⟨_, hmem, rfl⟩)
      rw [List.lookup_cons, beq_false_of_ne hne]
      exact ih hnodup.2 hmem

theorem replacement_of_not_mem {renames : List (LabelId × LabelId)} {id : LabelId}
    (h : id ∉ renames.map Prod.fst) : replacement renames id = id := by
  have hnone : renames.reverse.lookup id = none := by
    rw [List.lookup_eq_none_iff]
    rintro pair hpair
    rw [bne_iff_ne]
    rintro rfl
    exact h (List.mem_map_of_mem (List.mem_reverse.1 hpair))
  rw [replacement, hnone, Option.getD_none]

theorem replacement_eq {renames : List (LabelId × LabelId)} {id id' : LabelId}
    (hnodup : (renames.map Prod.fst).Nodup) (h : Renamed renames id id') :
    replacement renames id = id' := by
  rcases h with h | ⟨rfl, h⟩
  · have hrev : (renames.reverse.map Prod.fst).Nodup := by
      rw [List.map_reverse]
      exact List.nodup_reverse.2 hnodup
    rw [replacement, lookup_of_mem hrev (List.mem_reverse.2 h), Option.getD_some]
  · exact replacement_of_not_mem h

/-- A label that has replacements becomes one of them. -/
theorem replacement_mem {renames : List (LabelId × LabelId)} {id : LabelId}
    (h : id ∈ renames.map Prod.fst) : replacement renames id ∈ renames.map Prod.snd := by
  unfold replacement
  cases hlookup : renames.reverse.lookup id with
  | none =>
    obtain ⟨pair, hpair, rfl⟩ := List.mem_map.1 h
    have hne := List.lookup_eq_none_iff.1 hlookup pair (List.mem_reverse.2 hpair)
    simp at hne
  | some id' =>
    obtain ⟨l₁, l₂, hsplit, -⟩ := List.lookup_eq_some_iff.1 hlookup
    have hmem : (id, id') ∈ renames := by
      rw [← List.mem_reverse, hsplit]
      exact List.mem_append_right l₁ List.mem_cons_self
    exact List.mem_map_of_mem hmem

theorem replacement_cases (renames : List (LabelId × LabelId)) (id : LabelId) :
    replacement renames id = id ∨ replacement renames id ∈ renames.map Prod.snd := by
  by_cases h : id ∈ renames.map Prod.fst
  · exact .inr (replacement_mem h)
  · exact .inl (replacement_of_not_mem h)

/-! ## Runs of labels -/

section Collapse
variable {op : Op LabelId} {id : LabelId} (rest : List (Op LabelId))

theorem collapse_merged (h : op.declared? = some id) (first : LabelId) :
    collapse (some first) (op :: rest) = ((collapse (some first) rest).1,
      if first = id then (collapse (some first) rest).2
      else (id, first) :: (collapse (some first) rest).2) := by
  simp only [collapse, h]

theorem collapse_label (h : op.declared? = some id) :
    collapse none (op :: rest) =
      (op :: (collapse (some id) rest).1, (collapse (some id) rest).2) := by
  simp only [collapse, h]

theorem collapse_other (h : op.declared? = none) (survivor : Option LabelId) :
    collapse survivor (op :: rest) =
      (op :: (collapse (if op.isNop then survivor else none) rest).1,
        (collapse (if op.isNop then survivor else none) rest).2) := by
  simp only [collapse, h]

theorem collapse_executable (h : op.isExecutable = true) (survivor : Option LabelId) :
    collapse survivor (op :: rest) = (op :: (collapse none rest).1, (collapse none rest).2) := by
  rw [collapse_other rest (Op.declared?_of_executable h), Op.isNop_of_executable h]
  rfl

end Collapse

theorem collapse_sublist (survivor : Option LabelId) (ops : List (Op LabelId)) :
    (collapse survivor ops).1.Sublist ops := by
  induction ops generalizing survivor with
  | nil => exact .slnil
  | cons op rest ih =>
    cases hop : op.declared? with
    | none => exact collapse_other rest hop survivor ▸ (ih _).cons_cons op
    | some id =>
      cases survivor with
      | none => exact collapse_label rest hop ▸ (ih _).cons_cons op
      | some first => exact collapse_merged rest hop first ▸ (ih _).cons op

theorem renames_sublist (survivor : Option LabelId) (ops : List (Op LabelId)) :
    ((collapse survivor ops).2.map Prod.fst).Sublist (declaredLabels ops) := by
  induction ops generalizing survivor with
  | nil => exact .slnil
  | cons op rest ih =>
    cases hop : op.declared? with
    | none =>
      rw [collapse_other rest hop, declaredLabels, List.filterMap_cons_none hop]
      exact ih _
    | some id =>
      rw [declaredLabels, List.filterMap_cons_some hop]
      cases survivor with
      | none => exact collapse_label rest hop ▸ (ih _).cons id
      | some first =>
        rw [collapse_merged rest hop]
        dsimp only
        split
        · exact (ih _).cons id
        · exact (ih _).cons_cons id

/-- What takes the place of a label is declared by a line that stays, or is the label the lines
follow. -/
theorem renames_survive {survivor : Option LabelId} {ops : List (Op LabelId)} {id : LabelId}
    (h : id ∈ (collapse survivor ops).2.map Prod.snd) :
    survivor = some id ∨ id ∈ declaredLabels (collapse survivor ops).1 := by
  induction ops generalizing survivor with
  | nil => cases h
  | cons op rest ih =>
    cases hop : op.declared? with
    | none =>
      rw [collapse_other rest hop] at h ⊢
      rw [declaredLabels, List.filterMap_cons_none hop]
      refine (ih h).imp_left fun heq => ?_
      cases hnop : op.isNop with
      | true => simpa [hnop] using heq
      | false => simp [hnop] at heq
    | some a =>
      cases survivor with
      | none =>
        rw [collapse_label rest hop] at h ⊢
        rw [declaredLabels, List.filterMap_cons_some hop]
        refine .inr ((ih h).elim (fun heq => ?_) (List.mem_cons_of_mem a))
        cases heq
        exact List.mem_cons_self
      | some first =>
        rw [collapse_merged rest hop] at h ⊢
        dsimp only at h
        split at h
        · exact ih h
        · rcases List.mem_cons.1 h with rfl | h
          · exact .inl rfl
          · exact ih h

theorem renames_declared {survivor : Option LabelId} {ops : List (Op LabelId)} {id : LabelId}
    (h : id ∈ (collapse survivor ops).2.map Prod.snd) :
    survivor = some id ∨ id ∈ declaredLabels ops :=
  (renames_survive h).imp_right fun hid =>
    (declaredLabels_sublist (collapse_sublist survivor ops)).subset hid

/-- A declared label stays declared, or is replaced, or is the label the lines follow. -/
theorem declared_or_renamed (survivor : Option LabelId) {ops : List (Op LabelId)} {id : LabelId}
    (h : id ∈ declaredLabels ops) :
    survivor = some id ∨ id ∈ declaredLabels (collapse survivor ops).1 ∨
      id ∈ (collapse survivor ops).2.map Prod.fst := by
  induction ops generalizing survivor with
  | nil => cases h
  | cons op rest ih =>
    cases hop : op.declared? with
    | none =>
      rw [declaredLabels, List.filterMap_cons_none hop] at h
      rw [collapse_other rest hop, declaredLabels, List.filterMap_cons_none hop]
      refine (ih _ h).imp_left fun heq => ?_
      cases hnop : op.isNop with
      | true => simpa [hnop] using heq
      | false => simp [hnop] at heq
    | some a =>
      rw [declaredLabels, List.filterMap_cons_some hop, List.mem_cons] at h
      cases survivor with
      | none =>
        rw [collapse_label rest hop, declaredLabels, List.filterMap_cons_some hop, List.mem_cons]
        rcases h with rfl | h
        · exact .inr (.inl (.inl rfl))
        · rcases ih (some a) h with heq | hid | hid
          · exact .inr (.inl (.inl (Option.some.inj heq).symm))
          · exact .inr (.inl (.inr hid))
          · exact .inr (.inr hid)
      | some first =>
        rw [collapse_merged rest hop]
        dsimp only
        by_cases hfirst : first = a
        · rw [if_pos hfirst]
          rcases h with rfl | h
          · exact .inl (congrArg some hfirst)
          · exact ih _ h
        · rw [if_neg hfirst, List.map_cons, List.mem_cons]
          rcases h with rfl | h
          · exact .inr (.inr (.inl rfl))
          · exact (ih _ h).imp_right (.imp_right .inr)

/-- Whatever label the lines follow, the same instructions lie ahead. -/
theorem ahead_collapse (survivor : Option LabelId) (ops : List (Op LabelId)) :
    ahead (collapse survivor ops).1 = ahead (collapse none (ahead ops)).1 := by
  induction ops generalizing survivor with
  | nil => rfl
  | cons op rest ih =>
    cases hexec : op.isExecutable with
    | true =>
      rw [ahead_cons_of_executable hexec, collapse_executable rest hexec,
        collapse_executable rest hexec]
    | false =>
      rw [ahead_cons_of_skipped hexec]
      cases hop : op.declared? with
      | none => rw [collapse_other rest hop, ahead_cons_of_skipped hexec, ih]
      | some id =>
        cases survivor with
        | none => rw [collapse_label rest hop, ahead_cons_of_skipped hexec, ih]
        | some first => rw [collapse_merged rest hop, ih]

/-- What becomes of the label `id` when the lines `ops` are collapsed after the label `survivor`. A
declared label stays in place, or the replacement is a label that stays where control goes on alike,
perhaps the label before all lines. -/
theorem collapse_place (id : LabelId) {survivor : Option LabelId} {ops : List (Op LabelId)}
    (hnodup : (declaredLabels ops).Nodup)
    (hsurvivor : ∀ first, survivor = some first → first ∉ declaredLabels ops) :
    (place? id ops = none ∧ place? id (collapse survivor ops).1 = none ∧
      Renamed (collapse survivor ops).2 id id) ∨
    ∃ i id', place? id ops = some i ∧ Renamed (collapse survivor ops).2 id id' ∧
      ((∃ j, place? id' (collapse survivor ops).1 = some j ∧
        Trimmed (fun ops => (collapse none ops).1) ops (collapse survivor ops).1 i j) ∨
      (survivor = some id' ∧ ahead ops = ahead (ops.drop i))) := by
  induction ops generalizing survivor with
  | nil => exact .inl ⟨rfl, rfl, .inr ⟨rfl, List.not_mem_nil⟩⟩
  | cons op rest ih =>
    cases hop : op.declared? with
    | none =>
      have hne (id : LabelId) : op.declared? ≠ some id := by simp [hop]
      rw [declaredLabels, List.filterMap_cons_none hop] at hnodup hsurvivor
      rw [collapse_other rest hop, place?_cons_ne (hne id)]
      have hsurvivor' : ∀ first, (if op.isNop then survivor else none) = some first →
          first ∉ declaredLabels rest := by
        intro first hfirst
        cases hnop : op.isNop with
        | true => exact hsurvivor first (by simpa [hnop] using hfirst)
        | false => simp [hnop] at hfirst
      rcases ih hnodup hsurvivor' with ⟨hi, hj, hren⟩ | ⟨i, id', hi, hren, hplace⟩
      · exact .inl ⟨by rw [hi]; rfl, by rw [place?_cons_ne (hne id), hj]; rfl, hren⟩
      · refine .inr ⟨i + 1, id', by rw [hi]; rfl, hren, ?_⟩
        rcases hplace with ⟨j, hj, htrim⟩ | ⟨hs, hahead⟩
        · exact .inl ⟨j + 1, by rw [place?_cons_ne (hne id'), hj]; rfl, htrim⟩
        · cases hnop : op.isNop with
          | true =>
            refine .inr ⟨by simpa [hnop] using hs, ?_⟩
            rw [ahead_cons_of_skipped (Op.skipped_of_isNop hnop), hahead, List.drop_succ_cons]
          | false => simp [hnop] at hs
    | some a =>
      have hskip := Op.executable_of_declared hop
      rw [declaredLabels, List.filterMap_cons_some hop] at hnodup hsurvivor
      obtain ⟨ha, hnodup⟩ := List.nodup_cons.1 hnodup
      cases survivor with
      | some first =>
        -- This declaration goes, and `first` takes its place.
        obtain ⟨hne, hfirst⟩ := List.ne_and_not_mem_of_not_mem_cons (hsurvivor first rfl)
        rw [collapse_merged rest hop, if_neg hne]
        by_cases hid : a = id
        · subst hid
          exact .inr ⟨0, first, place?_cons_self hop rest, .inl List.mem_cons_self, .inr ⟨rfl, rfl⟩⟩
        · rw [place?_cons_ne (by simpa [hop] using hid)]
          rcases ih hnodup fun b hb => Option.some.inj hb ▸ hfirst with
            ⟨hi, hj, hren⟩ | ⟨i, id', hi, hren, hplace⟩
          · exact .inl ⟨by rw [hi]; rfl, hj, hren.cons (Ne.symm hid)⟩
          · refine .inr ⟨i + 1, id', by rw [hi]; rfl, hren.cons (Ne.symm hid), ?_⟩
            rcases hplace with ⟨j, hj, htrim⟩ | ⟨hs, hahead⟩
            · exact .inl ⟨j, hj, htrim⟩
            · exact .inr ⟨hs, by rw [ahead_cons_of_skipped hskip, hahead, List.drop_succ_cons]⟩
      | none =>
        -- This declaration stays, and takes the place of those that follow it directly.
        rw [collapse_label rest hop]
        by_cases hid : a = id
        · subst hid
          have hkeys : a ∉ (collapse (some a) rest).2.map Prod.fst := fun hmem =>
            ha ((renames_sublist _ _).subset hmem)
          refine .inr ⟨0, a, place?_cons_self hop rest, .inr ⟨rfl, hkeys⟩,
            .inl ⟨0, place?_cons_self hop _, ?_⟩⟩
          rw [Trimmed, List.drop_zero, List.drop_zero, ahead_cons_of_skipped hskip,
            ahead_cons_of_skipped hskip, ahead_collapse]
        · have hne : op.declared? ≠ some id := by simpa [hop] using hid
          rw [place?_cons_ne hne, place?_cons_ne hne]
          rcases ih hnodup fun b hb => Option.some.inj hb ▸ ha with
            ⟨hi, hj, hren⟩ | ⟨i, id', hi, hren, hplace⟩
          · exact .inl ⟨by rw [hi]; rfl, by rw [hj]; rfl, hren⟩
          · refine .inr ⟨i + 1, id', by rw [hi]; rfl, hren, .inl ?_⟩
            rcases hplace with ⟨j, hj, htrim⟩ | ⟨hs, hahead⟩
            · have hne' : op.declared? ≠ some id' := by
                rw [hop]
                rintro ⟨⟩
                exact ha ((declaredLabels_sublist (collapse_sublist _ _)).subset
                  (mem_declaredLabels_of_place? hj))
              exact ⟨j + 1, by rw [place?_cons_ne hne', hj]; rfl, htrim⟩
            · cases hs
              refine ⟨0, place?_cons_self hop _, ?_⟩
              rw [Trimmed, List.drop_zero, ahead_cons_of_skipped hskip, ahead_collapse, hahead,
                List.drop_succ_cons]

/-! ## Retargeted lines -/

theorem ahead_map_retarget (f : LabelId → LabelId) (ops : List (Op LabelId)) :
    ahead (ops.map (·.retarget f)) = (ahead ops).map (·.retarget f) := by
  induction ops with
  | nil => rfl
  | cons op rest ih =>
    cases hexec : op.isExecutable with
    | true =>
      rw [ahead_cons_of_executable hexec, List.map_cons,
        ahead_cons_of_executable (by rw [Op.isExecutable_retarget, hexec])]
    | false =>
      rw [ahead_cons_of_skipped hexec, List.map_cons,
        ahead_cons_of_skipped (by rw [Op.isExecutable_retarget, hexec]), ih]

theorem declaredLabels_map_retarget (f : LabelId → LabelId) (ops : List (Op LabelId)) :
    declaredLabels (ops.map (·.retarget f)) = declaredLabels ops := by
  simp [declaredLabels, List.filterMap_map, Op.declared?_retarget]

theorem place?_map_retarget (f : LabelId → LabelId) (id : LabelId) (ops : List (Op LabelId)) :
    place? id (ops.map (·.retarget f)) = place? id ops := by
  simp [place?, List.findIdx?_map, Function.comp_def, Op.declared?_retarget]

theorem trims_mergeLabels {l : Listing} (hl : l.Unambiguous) :
    let f := replacement (collapse none l.ops).2
    Trims (fun ops => (collapse none ops).1.map (·.retarget f)) l (mergeLabels l) f where
  labels := rfl
  start := by
    rw [ahead_map_retarget, ← ahead_collapse, ← ahead_map_retarget]
    rfl
  nil := rfl
  instruction {i op} _ hexec := by
    refine .inl ⟨_, by rw [collapse_executable _ hexec]; rfl, fun _ => ?_⟩
    rw [ahead_map_retarget, ahead_collapse, ← ahead_map_retarget]
  declaration {op id} _ _ := by
    have hkeys : ((collapse none l.ops).2.map Prod.fst).Nodup := hl.sublist (renames_sublist _ _)
    have hops : (mergeLabels l).ops = (collapse none l.ops).1.map
        (·.retarget (replacement (collapse none l.ops).2)) := rfl
    have hnone : ∀ first, (none : Option LabelId) = some first → first ∉ declaredLabels l.ops := by
      rintro _ ⟨⟩
    rcases collapse_place id hl hnone with
      ⟨hi, hj, hren⟩ | ⟨i, id', hi, hren, ⟨j, hj, htrim⟩ | ⟨hs, -⟩⟩
    · have hid := replacement_eq hkeys hren
      exact .inl ⟨hi, by rw [hid, hops, place?_map_retarget, hj], hid⟩
    · refine .inr ⟨i, j, hi, ?_, ?_⟩
      · rw [replacement_eq hkeys hren, hops, place?_map_retarget, hj]
      · rw [Trimmed, hops, ← List.map_drop, ahead_map_retarget, htrim, ahead_map_retarget]
    · cases hs

end Teal.Optimizer
