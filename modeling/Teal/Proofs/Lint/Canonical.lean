import Mathlib.Data.List.Sort
import Teal.Proofs.Lint.Faults
/-!
# The order of remarks

Remarks are sorted by line, and those on one line stay in the order in which they were made. So a
list of remarks that is sorted by line is known from what it says on each line, `eq_of_onLine`, and
sorting does not change that, `onLine_sortByLine`. It follows that leaving rules out commutes with
sorting, and that it does not matter in which order the rule on duplicate labels goes through the
labels: a line declares one label at most, so no two of its remarks are on one line.
-/

namespace Teal

namespace Diagnostic

/-! ## Sorting by line -/

/-- The remarks on one line, in their order. -/
def onLine (line : Nat) (ds : List Diagnostic) : List Diagnostic :=
  ds.filter (·.line = line)

/-- Remarks in the order of their lines. -/
def Ordered (ds : List Diagnostic) : Prop := ds.Pairwise (·.line ≤ ·.line)

variable {ds es : List Diagnostic}

theorem mem_onLine {d : Diagnostic} {line : Nat} : d ∈ onLine line ds ↔ d ∈ ds ∧ d.line = line := by
  simp [onLine]

theorem place_eq_orderedInsert (d : Diagnostic) (ds : List Diagnostic) :
    place d ds = ds.orderedInsert (·.line ≤ ·.line) d := by
  induction ds with
  | nil => rfl
  | cons e ds ih => rw [place, List.orderedInsert_cons, ih]

theorem sortByLine_eq_insertionSort (ds : List Diagnostic) :
    sortByLine ds = ds.insertionSort (·.line ≤ ·.line) := by
  induction ds with
  | nil => rfl
  | cons d ds ih => rw [sortByLine, place_eq_orderedInsert, ih, List.insertionSort_cons]

instance : Std.Total fun d e : Diagnostic => d.line ≤ e.line := ⟨fun _ _ => Nat.le_total _ _⟩

instance : IsTrans Diagnostic fun d e => d.line ≤ e.line := ⟨fun _ _ _ => Nat.le_trans⟩

theorem ordered_sortByLine (ds : List Diagnostic) : Ordered (sortByLine ds) := by
  rw [sortByLine_eq_insertionSort]
  exact List.pairwise_insertionSort _ ds

/-- Remarks on one line keep their order. -/
theorem onLine_sortByLine (line : Nat) (ds : List Diagnostic) :
    onLine line (sortByLine ds) = onLine line ds := by
  rw [sortByLine_eq_insertionSort]
  have hsame : (onLine line ds).Pairwise (·.line ≤ ·.line) := by
    refine List.pairwise_of_forall_mem_list fun d hd e he => ?_
    rw [(mem_onLine.1 hd).2, (mem_onLine.1 he).2]
  -- What is in order before sorting is left so, and sorting adds nothing to it.
  have hsub := (List.sublist_insertionSort hsame List.filter_sublist).filter (·.line = line)
  rw [onLine, List.filter_filter] at hsub
  simp only [Bool.and_self] at hsub
  have hlength := ((List.perm_insertionSort (·.line ≤ ·.line) ds).filter (·.line = line)).length_eq
  exact (hsub.eq_of_length hlength.symm).symm

theorem line_le_of_onLine {d e : Diagnostic} (hes : Ordered (e :: es))
    (h : onLine d.line (d :: ds) = onLine d.line (e :: es)) : e.line ≤ d.line := by
  have hd : d ∈ onLine d.line (e :: es) := h ▸ mem_onLine.2 ⟨List.mem_cons_self, rfl⟩
  rcases List.mem_cons.1 (mem_onLine.1 hd).1 with rfl | hd
  · exact Nat.le_refl _
  · exact (List.pairwise_cons.1 hes).1 d hd

/-- Remarks in the order of their lines are known from what they are on each line. -/
theorem eq_of_onLine (hds : Ordered ds) (hes : Ordered es)
    (h : ∀ line, onLine line ds = onLine line es) : ds = es := by
  induction ds generalizing es with
  | nil =>
    cases es with
    | nil => rfl
    | cons e es =>
      have he : e ∈ onLine e.line [] := h e.line ▸ mem_onLine.2 ⟨List.mem_cons_self, rfl⟩
      cases he
  | cons d ds ih =>
    cases es with
    | nil =>
      have hd : d ∈ onLine d.line [] := h d.line ▸ mem_onLine.2 ⟨List.mem_cons_self, rfl⟩
      cases hd
    | cons e es =>
      -- Both start with the first remark on the least line.
      have hline : e.line = d.line :=
        Nat.le_antisymm (line_le_of_onLine hes (h d.line))
          (line_le_of_onLine hds (h e.line).symm)
      have hhead := h d.line
      simp only [onLine, List.filter_cons, hline, decide_true, if_true] at hhead
      obtain ⟨rfl, -⟩ := List.cons.inj hhead
      congr 1
      refine ih (List.pairwise_cons.1 hds).2 (List.pairwise_cons.1 hes).2 fun line => ?_
      have htail := h line
      simp only [onLine, List.filter_cons] at htail ⊢
      split at htail
      · exact (List.cons.inj htail).2
      · exact htail

theorem sortByLine_eq_of_onLine (h : ∀ line, onLine line ds = onLine line es) :
    sortByLine ds = sortByLine es := by
  refine eq_of_onLine (ordered_sortByLine ds) (ordered_sortByLine es) fun line => ?_
  rw [onLine_sortByLine, onLine_sortByLine, h]

/-- Leaving remarks out before or after sorting comes to the same. -/
theorem filter_sortByLine (p : Diagnostic → Bool) (ds : List Diagnostic) :
    (sortByLine ds).filter p = sortByLine (ds.filter p) := by
  refine eq_of_onLine ((ordered_sortByLine ds).filter p) (ordered_sortByLine _) fun line => ?_
  have hcomm (ds : List Diagnostic) : onLine line (ds.filter p) = (onLine line ds).filter p := by
    simp only [onLine, List.filter_filter, Bool.and_comm]
  rw [onLine_sortByLine, hcomm, hcomm, onLine_sortByLine]

/-- Where no line has two remarks, every order of the remarks says the same of a line. -/
theorem onLine_of_perm (hnodup : (ds.map Diagnostic.line).Nodup) (h : ds.Perm es) (line : Nat) :
    onLine line ds = onLine line es := by
  have hperm : (onLine line ds).Perm (onLine line es) := h.filter _
  have hlines : (onLine line ds).map Diagnostic.line =
      List.replicate (onLine line ds).length line := by
    rw [List.eq_replicate_iff, List.length_map]
    refine ⟨rfl, fun n hn => ?_⟩
    obtain ⟨d, hd, rfl⟩ := List.mem_map.1 hn
    exact (mem_onLine.1 hd).2
  have hone : (onLine line ds).length ≤ 1 := by
    rw [← List.nodup_replicate (a := line), ← hlines]
    exact hnodup.sublist (List.filter_sublist.map _)
  generalize onLine line ds = ds' at hperm hone
  match ds', hone with
  | [], _ => exact hperm.nil_eq
  | [d], _ => exact (List.perm_singleton.1 hperm.symm).symm

end Diagnostic

namespace Lint

/-! ## Declared labels -/

section Listing
variable {l : Listing} {id : LabelId}

theorem mem_declared_iff : id ∈ l.ops.filterMap Op.declared? ↔ l.declarations id ≠ [] := by
  rw [List.mem_filterMap]
  constructor
  · rintro ⟨op, hop, hid⟩
    obtain ⟨line, hline⟩ := List.mem_iff_getElem?.1 hop
    exact List.ne_nil_of_mem (Listing.mem_declarations_iff.2 ⟨op, hline, hid⟩)
  · intro hne
    obtain ⟨line, hline⟩ := List.exists_mem_of_ne_nil _ hne
    obtain ⟨op, hop, hid⟩ := Listing.mem_declarations_iff.1 hline
    exact ⟨op, List.mem_of_getElem? hop, hid⟩

theorem nodup_declarations (l : Listing) (id : LabelId) : (l.declarations id).Nodup := by
  have hlines : (l.ops.zipIdx.map Prod.snd).Nodup := by
    rw [List.zipIdx_map_snd]
    exact List.nodup_range'
  unfold Listing.declarations
  refine List.pairwise_filterMap.2 ((List.pairwise_map.1 hlines).imp ?_)
  rintro ⟨op, i⟩ ⟨op', j⟩ hne _ hi _ hj
  simp only [Option.ite_none_right_eq_some, Option.some.injEq] at hi hj
  rw [← hi.2, ← hj.2]
  exact hne

/-- A line declares one label at most. -/
theorem disjoint_declarations {id id' : LabelId} (hne : id ≠ id') :
    List.Disjoint (l.declarations id) (l.declarations id') := by
  intro line hline hline'
  obtain ⟨op, hop, hdeclared⟩ := Listing.mem_declarations_iff.1 hline
  obtain ⟨op', hop', hdeclared'⟩ := Listing.mem_declarations_iff.1 hline'
  cases hop.symm.trans hop'
  cases hdeclared.symm.trans hdeclared'
  exact hne rfl

end Listing

theorem nodup_eraseDups (ids : List LabelId) : ids.eraseDups.Nodup := by
  induction hn : ids.length using Nat.strongRecOn generalizing ids with
  | ind n ih =>
    cases ids with
    | nil => exact List.nodup_nil
    | cons id ids =>
      rw [List.eraseDups_cons, List.nodup_cons]
      refine ⟨fun hmem => ?_, ih _ ?_ _ rfl⟩
      · simpa using List.mem_eraseDups.1 hmem
      · rw [← hn]
        exact Nat.lt_succ_of_le (List.length_filter_le _ _)

/-- The declared labels, each once and with the lines that declare it, in any order. -/
structure Enumerates (l : Listing) (sites : List (LabelId × List Nat)) : Prop where
  nodup : (sites.map Prod.fst).Nodup
  mem_iff : ∀ id lines, (id, lines) ∈ sites ↔ lines = l.declarations id ∧ lines ≠ []

theorem enumerates_declarationSites (l : Listing) : Enumerates l (declarationSites l) where
  nodup := by
    rw [declarationSites, List.map_map]
    exact (List.map_id _).symm ▸ nodup_eraseDups _
  mem_iff id lines := by
    simp only [declarationSites, List.mem_map, List.mem_eraseDups, mem_declared_iff, Prod.mk.injEq]
    constructor
    · rintro ⟨_, hne, rfl, rfl⟩
      exact ⟨rfl, hne⟩
    · rintro ⟨rfl, hne⟩
      exact ⟨id, hne, rfl, rfl⟩

/-- The declared labels in any order are a permutation of what is listed by first declarations. -/
theorem enumerates_iff_perm {l : Listing} {sites : List (LabelId × List Nat)} :
    Enumerates l sites ↔ sites.Perm (declarationSites l) := by
  have hlisted := enumerates_declarationSites l
  constructor
  · intro h
    refine (List.perm_ext_iff_of_nodup h.nodup.of_map hlisted.nodup.of_map).2 ?_
    rintro ⟨id, lines⟩
    rw [h.mem_iff, hlisted.mem_iff]
  · intro h
    refine ⟨(h.map _).nodup_iff.2 hlisted.nodup, fun id lines => ?_⟩
    rw [h.mem_iff, hlisted.mem_iff]

/-- No line has two remarks of the rule on duplicate labels. -/
theorem Enumerates.nodup_duplicateLabelsIn {l : Listing} {sites : List (LabelId × List Nat)}
    (h : Enumerates l sites) : ((duplicateLabelsIn l sites).map Diagnostic.line).Nodup := by
  have hlines : (duplicateLabelsIn l sites).map Diagnostic.line =
      sites.flatMap fun site => if site.2.length < 2 then [] else site.2 := by
    rw [duplicateLabelsIn, List.map_flatMap]
    refine List.flatMap_congr fun site _ => ?_
    dsimp only
    split
    · rfl
    · rw [List.map_map]
      refine (List.map_congr_left fun _ _ => ?_).trans (List.map_id _)
      exact Diagnostic.line_spanningWord _ _ _
  have hsub (site : LabelId × List Nat) (hsite : site ∈ sites) :
      (if site.2.length < 2 then [] else site.2).Sublist (l.declarations site.1) := by
    rw [← ((h.mem_iff site.1 site.2).1 hsite).1]
    split
    · exact List.nil_sublist _
    · exact List.Sublist.refl _
  rw [hlines, List.nodup_flatMap]
  refine ⟨fun site hsite => (nodup_declarations l site.1).sublist (hsub site hsite), ?_⟩
  refine (List.pairwise_map.1 h.nodup).imp_of_mem fun {site site'} hs hs' hne line hl hl' => ?_
  exact disjoint_declarations hne ((hsub site hs).subset hl) ((hsub site' hs').subset hl')

/-! ## Rules -/

/-- The remarks that a rule makes. -/
def Rule.found (rule : Rule) (c : Context) : List Diagnostic :=
  (rule.check c).getD []

/-- Every rule, where the one on duplicate labels goes through the labels in the given order. No
other rule goes through the labels: they look them up one by one. -/
def registryBy (sites : List (LabelId × List Nat)) : List Rule :=
  { duplicateLabel with check := fun c => some (duplicateLabelsIn c.listing sites) } ::
    registry.tail

section Rules
variable {rule : Rule} {rules : List Rule} {c : Context}

theorem rule_of_mem_map {α : Type} {xs : List α} {f : α → Diagnostic} {name : String}
    {d : Diagnostic} (hd : d ∈ xs.map f) (hf : ∀ x, (f x).rule = name) : d.rule = name := by
  obtain ⟨x, -, rfl⟩ := List.mem_map.1 hd
  exact hf x

/-- Every remark carries the name of its rule. -/
theorem rule_of_mem_found (hrule : rule ∈ registry) {d : Diagnostic} (hd : d ∈ rule.found c) :
    d.rule = rule.name := by
  simp only [registry, List.mem_cons, List.not_mem_nil, or_false] at hrule
  rcases hrule with rfl | rfl | rfl | rfl | rfl | rfl | rfl | rfl | rfl | rfl
  · obtain ⟨⟨id, lines⟩, -, hd⟩ := List.mem_flatMap.1 hd
    dsimp only at hd
    split at hd
    · cases hd
    · exact rule_of_mem_map hd fun _ => Diagnostic.rule_spanningWord _ _ _
  · exact rule_of_mem_map hd fun _ => rfl
  · exact rule_of_mem_map hd fun _ => rfl
  · exact rule_of_mem_map hd fun _ => rfl
  · exact rule_of_mem_map hd fun _ => Diagnostic.rule_spanningWord _ _ _
  · exact rule_of_mem_map hd fun _ => rfl
  · exact rule_of_mem_map hd fun _ => rfl
  · exact rule_of_mem_map hd fun _ => Diagnostic.rule_spanningWord _ _ _
  · exact rule_of_mem_map hd fun _ => Diagnostic.rule_spanningWord _ _ _
  · simp only [Rule.found, modeAvailability] at hd
    split at hd
    · cases hd
    · exact rule_of_mem_map hd fun _ => Diagnostic.rule_spanningWord _ _ _

/-- No rule looks at which rules are switched off. -/
theorem found_disabled (hrule : rule ∈ registry) (l : Listing) (catalog : Catalog)
    (config : Config) (disabled : List String) :
    rule.found { listing := l, catalog, config := { config with disabled } } =
      rule.found { listing := l, catalog, config } := by
  simp only [registry, List.mem_cons, List.not_mem_nil, or_false] at hrule
  rcases hrule with rfl | rfl | rfl | rfl | rfl | rfl | rfl | rfl | rfl | rfl <;> rfl

/-- The remarks of some of the rules are those that carry the names of these rules. -/
theorem filter_flatMap_found (p : String → Bool) (hrules : rules ⊆ registry) :
    (rules.flatMap (·.found c)).filter (p ·.rule) =
      (rules.filter (p ·.name)).flatMap (·.found c) := by
  induction rules with
  | nil => rfl
  | cons rule rules ih =>
    obtain ⟨hrule, hrules⟩ := List.cons_subset.1 hrules
    have hnames : (rule.found c).filter (p ·.rule) =
        (rule.found c).filter fun _ => p rule.name :=
      List.filter_congr fun d hd => by rw [rule_of_mem_found hrule hd]
    rw [List.flatMap_cons, List.filter_append, ih hrules, hnames, List.filter_cons]
    cases p rule.name with
    | true => simp
    | false => simp

end Rules

/-- Whatever the order of the labels, the rules make the same remarks on a line. -/
theorem runRules_registryBy {l : Listing} {sites : List (LabelId × List Nat)}
    (h : Enumerates l sites) (catalog : Catalog) (config : Config) :
    runRules { listing := l, catalog, config } (registryBy sites) = l.lint catalog config := by
  refine Diagnostic.sortByLine_eq_of_onLine fun line => ?_
  have hduplicate : Diagnostic.onLine line (duplicateLabelsIn l sites) =
      Diagnostic.onLine line (duplicateLabelsIn l (declarationSites l)) :=
    Diagnostic.onLine_of_perm h.nodup_duplicateLabelsIn
      ((enumerates_iff_perm.1 h).flatMap_right _) line
  have hregistry : registry = duplicateLabel :: registry.tail := rfl
  dsimp only
  rw [hregistry, registryBy, List.filter_cons, List.filter_cons]
  dsimp only
  split
  · rw [List.flatMap_cons, List.flatMap_cons]
    simp only [Diagnostic.onLine, List.filter_append] at hduplicate ⊢
    exact congrArg (· ++ _) hduplicate
  · rfl

/-- Switching rules off is leaving out the remarks that carry their names. -/
theorem lint_disabled (l : Listing) (catalog : Catalog) (config : Config) :
    l.lint catalog config =
      (l.lint catalog { config with disabled := [] }).filter (config.isEnabled ·.rule) := by
  let c : Context := { listing := l, catalog, config }
  have hall : l.lint catalog { config with disabled := [] } =
      Diagnostic.sortByLine (registry.flatMap (·.found c)) := by
    refine congrArg Diagnostic.sortByLine ?_
    have henabled : registry.filter (({ config with disabled := [] } : Config).isEnabled ·.name) =
        registry :=
      List.filter_eq_self.2 fun _ _ => rfl
    dsimp only
    rw [henabled]
    exact List.flatMap_congr fun rule hrule => found_disabled hrule l catalog config []
  calc l.lint catalog config
    _ = Diagnostic.sortByLine
          ((registry.filter (config.isEnabled ·.name)).flatMap (·.found c)) := rfl
    _ = Diagnostic.sortByLine
          ((registry.flatMap (·.found c)).filter (config.isEnabled ·.rule)) := by
        rw [filter_flatMap_found config.isEnabled (List.Subset.refl registry)]
    _ = (Diagnostic.sortByLine (registry.flatMap (·.found c))).filter (config.isEnabled ·.rule) :=
        (Diagnostic.filter_sortByLine _ _).symm
    _ = (l.lint catalog { config with disabled := [] }).filter (config.isEnabled ·.rule) := by
        rw [hall]

/-- The remarks on a listing are the same for every order of its declared labels. They are sorted by
line; those on one line are those of the enabled rules, rule by rule, in the order of the registry
and each in the order in which its rule made them. And switching rules off is leaving out the
remarks that carry their names. -/
theorem lint_canonical (l : Listing) (catalog : Catalog) (config : Config) :
    let c : Context := { listing := l, catalog, config }
    (∀ sites, Enumerates l sites → runRules c (registryBy sites) = l.lint catalog config) ∧
    (l.lint catalog config).Pairwise (·.line ≤ ·.line) ∧
    (∀ line, (l.lint catalog config).filter (·.line = line) =
      (registry.filter (config.isEnabled ·.name)).flatMap fun rule =>
        (rule.found c).filter (·.line = line)) ∧
    (∀ rule ∈ registry, ∀ d ∈ rule.found c, d.rule = rule.name) ∧
    l.lint catalog config =
      (l.lint catalog { config with disabled := [] }).filter (·.rule ∉ config.disabled) := by
  intro c
  refine ⟨fun sites h => runRules_registryBy h catalog config, Diagnostic.ordered_sortByLine _,
    fun line => ?_, fun rule hrule d hd => rule_of_mem_found hrule hd, ?_⟩
  · refine (Diagnostic.onLine_sortByLine line _).trans ?_
    rw [Diagnostic.onLine, List.filter_flatMap]
    rfl
  · rw [lint_disabled]
    exact List.filter_congr fun d _ => by simp [Config.isEnabled]

/-- Two labels, each declared twice and never referred to. -/
def declaredTwice : Listing :=
  { ops := [.label 0, .label 1, .label 1, .label 0], labels := .ofList ["a", "b"] }

/-- The remarks on one label lie between those on the other one, whichever of them is looked at
first, and come before those of the rule on unused labels. -/
theorem lint_canonical_reversed :
    let c : Context := { listing := declaredTwice, catalog := .standard, config := {} }
    let sites := [(1, [1, 2]), (0, [0, 3])]
    Enumerates declaredTwice sites ∧ sites ≠ declarationSites declaredTwice ∧
      (runRules c (registryBy sites)).map (fun d => (d.line, d.message)) =
        [(0, "label a declared 2 times"), (0, "label a is never referenced"),
          (1, "label b declared 2 times"), (1, "label b is never referenced"),
          (2, "label b declared 2 times"), (2, "label b is never referenced"),
          (3, "label a declared 2 times"), (3, "label a is never referenced")] ∧
      runRules c (registryBy sites) = declaredTwice.lint .standard {} := by
  intro c sites
  have hsites : Enumerates declaredTwice sites := enumerates_iff_perm.2 (by decide)
  exact ⟨hsites, by decide, by decide +kernel,
    (lint_canonical declaredTwice .standard {}).1 sites hsites⟩

end Lint

end Teal
