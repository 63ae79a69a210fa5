import LongestMatch.Proofs.Priorities
import LongestMatch.Proofs.Shortest
import Mathlib.Data.Sym.Sym2
import Mathlib.Order.Bounds.Defs

/-!
# What a report on clashes holds

Clashes are recorded state by state. The report has one entry for each pair of actions, in the order
in which the pairs were first met (`Clash.map_pair_nearest`), and keeps for each the nearest of the
states where that pair clashed (`Clash.mem_nearest`). A way to a state has texts that pass it, and
they lead there (`Nfa.trail_of_way`, `Nfa.exists_way`), so a shortest way to the nearest state is as
long as the shortest text on which the pair clashes: `Nfa.report_exact`.
-/

namespace LongestMatch

/-- A transition for one character only is shown as this character. -/
theorem Transition.text_of_unique {t : Transition} {c : Char} (hc : t.contains c = true)
    (honly : ∀ c', t.contains c' = true → c' = c) : t.text = Escape.char c := by
  obtain ⟨hlo, hhi⟩ := CharRange.contains_iff.1 hc
  rw [text, honly t.lo (CharRange.contains_iff.2 ⟨Nat.le_refl _, hlo.trans hhi⟩),
    honly t.hi (CharRange.contains_iff.2 ⟨hlo.trans hhi, Nat.le_refl _⟩), if_pos rfl]

namespace Clash

/-! ## The nearest of each pair -/

/-- The two actions, in no order. -/
def Found.pair (c : Found) : Sym2 ActionId :=
  s(c.first, c.second)

theorem Found.samePair_iff {a b : Found} : a.samePair b = true ↔ a.pair = b.pair := by
  rw [samePair, pair, pair, Sym2.eq_iff]
  simp only [Bool.or_eq_true, Bool.and_eq_true, beq_iff_eq]

variable {depth : Nat → Nat} {c k : Found} {kept found : List Found}

/-- A pair that is known keeps its place, a new one comes last. -/
theorem map_pair_keepNearest : (keepNearest depth c kept).map Found.pair =
    if c.pair ∈ kept.map Found.pair then kept.map Found.pair
    else kept.map Found.pair ++ [c.pair] := by
  induction kept with
  | nil => rfl
  | cons best rest ih =>
    rw [keepNearest]
    by_cases hsame : best.samePair c = true
    · have hpair := Found.samePair_iff.1 hsame
      rw [if_pos hsame, List.map_cons, List.map_cons, ← hpair, if_pos List.mem_cons_self]
      split
      · rfl
      · rw [hpair]
    · have hpair : c.pair ≠ best.pair := fun heq => hsame (Found.samePair_iff.2 heq.symm)
      rw [if_neg hsame, List.map_cons, List.map_cons, ih]
      by_cases hmem : c.pair ∈ rest.map Found.pair
      · rw [if_pos hmem, if_pos (List.mem_cons_of_mem _ hmem)]
      · rw [if_neg hmem, if_neg (List.not_mem_cons_of_ne_of_not_mem hpair hmem)]
        rfl

/-- Of two clashes of a pair the nearer one is kept. -/
theorem mem_keepNearest (hnodup : (kept.map Found.pair).Nodup)
    (h : k ∈ keepNearest depth c kept) :
    (k ∈ kept ∧ (c.pair = k.pair → depth k.state ≤ depth c.state)) ∨
      k = c ∧ ∀ best ∈ kept, best.pair = c.pair → depth c.state ≤ depth best.state := by
  induction kept with
  | nil =>
    obtain rfl := List.mem_singleton.1 h
    exact .inr ⟨rfl, fun best hbest => absurd hbest List.not_mem_nil⟩
  | cons best rest ih =>
    obtain ⟨hfresh, hnodup⟩ := List.nodup_cons.1 (List.map_cons ▸ hnodup)
    rw [keepNearest] at h
    by_cases hsame : best.samePair c = true
    · have hpair := Found.samePair_iff.1 hsame
      -- the rest holds other pairs
      have hother : ∀ k ∈ rest, k.pair ≠ best.pair :=
        fun k hk heq => hfresh (heq ▸ List.mem_map_of_mem hk)
      rw [if_pos hsame] at h
      rcases List.mem_cons.1 h with rfl | h
      · split
        · next hle => exact .inl ⟨List.mem_cons_self, fun _ => hle⟩
        · next hlt =>
          refine .inr ⟨rfl, List.forall_mem_cons.2 ⟨fun _ => Nat.le_of_not_le hlt, ?_⟩⟩
          intro k hk heq
          exact absurd (heq.trans hpair.symm) (hother k hk)
      · exact .inl ⟨List.mem_cons_of_mem _ h, fun heq => absurd (heq.symm.trans hpair.symm)
          (hother k h)⟩
    · rw [if_neg hsame] at h
      have hpair : best.pair ≠ c.pair := fun heq => hsame (Found.samePair_iff.2 heq)
      rcases List.mem_cons.1 h with rfl | h
      · exact .inl ⟨List.mem_cons_self, fun heq => absurd heq.symm hpair⟩
      · rcases ih hnodup h with ⟨hk, hle⟩ | ⟨rfl, hle⟩
        · exact .inl ⟨List.mem_cons_of_mem _ hk, hle⟩
        · exact .inr ⟨rfl, List.forall_mem_cons.2 ⟨fun heq => absurd heq hpair, hle⟩⟩

/-- Of each pair the nearest clash, in the order in which the pairs were first met. -/
def nearest (depth : Nat → Nat) (found : List Found) : List Found :=
  found.foldl (fun best c => keepNearest depth c best) []

theorem nearest_concat :
    nearest depth (found ++ [c]) = keepNearest depth c (nearest depth found) := by
  rw [nearest, List.foldl_append]
  rfl

theorem map_pair_nearest (depth : Nat → Nat) (found : List Found) :
    (nearest depth found).map Found.pair = (found.map Found.pair).eraseDups := by
  induction found using List.reverseRecOn with
  | nil => rfl
  | append_singleton found c ih =>
    rw [nearest_concat, map_pair_keepNearest, ih, List.map_append, List.eraseDups_append]
    by_cases hmem : c.pair ∈ found.map Found.pair
    · rw [if_pos (List.mem_eraseDups.2 hmem), List.map_singleton, List.removeAll,
        List.filter_singleton, List.elem_eq_true_of_mem hmem]
      exact (List.append_nil _).symm
    · have helem : (found.map Found.pair).elem c.pair = false := by
        rw [List.elem_eq_mem, decide_eq_false_iff_not]
        exact hmem
      rw [if_neg (mt List.mem_eraseDups.1 hmem), List.map_singleton, List.removeAll,
        List.filter_singleton, helem]
      rfl

theorem nearest_ne_nil (h : found ≠ []) : nearest depth found ≠ [] := by
  obtain ⟨c, hc⟩ := List.exists_mem_of_ne_nil _ h
  have hmem : c.pair ∈ (nearest depth found).map Found.pair := by
    rw [map_pair_nearest, List.mem_eraseDups]
    exact List.mem_map_of_mem hc
  intro hnil
  rw [hnil] at hmem
  cases hmem

/-- What is kept was found, and no clash of its pair was found nearer. -/
theorem mem_nearest (h : k ∈ nearest depth found) :
    k ∈ found ∧ ∀ c ∈ found, c.pair = k.pair → depth k.state ≤ depth c.state := by
  induction found using List.reverseRecOn generalizing k with
  | nil => cases h
  | append_singleton found c ih =>
    have hpairs := map_pair_nearest depth found
    have hnodup : ((nearest depth found).map Found.pair).Nodup := hpairs ▸ nodup_eraseDups _
    rw [nearest_concat] at h
    simp only [List.mem_append, List.mem_singleton]
    rcases mem_keepNearest hnodup h with ⟨hk, hle⟩ | ⟨rfl, hle⟩
    · obtain ⟨hk, hmin⟩ := ih hk
      refine ⟨.inl hk, fun c' hc' heq => ?_⟩
      rcases hc' with hc' | rfl
      · exact hmin c' hc' heq
      · exact hle heq
    · refine ⟨.inr rfl, fun c' hc' heq => ?_⟩
      rcases hc' with hc' | rfl
      · -- the clash kept so far was not nearer, and none found so far was nearer than that
        have hmem : c'.pair ∈ (nearest depth found).map Found.pair := by
          rw [hpairs, List.mem_eraseDups]
          exact List.mem_map_of_mem hc'
        obtain ⟨best, hbest, hpair⟩ := List.mem_map.1 hmem
        exact (hle best hbest (hpair.trans heq)).trans ((ih hbest).2 c' hc' hpair.symm)
      · exact Nat.le_refl _

end Clash

namespace Nfa

variable {nfa : Nfa} {catalog : Catalog} {failPolicy : FailPolicy} {eofAction : Option ActionId}

/-! ## Clashes of states and of texts -/

/-- The pair clashes on a text. -/
def ClashesOn (nfa : Nfa) (catalog : Catalog) (w : List Char) (pair : Sym2 ActionId) : Prop :=
  pair ∈ (nfa.resolution catalog w).clashes.map fun p => s(p.1, p.2)

/-- The pairs that clash in the states of the compiled automaton, state by state. -/
def clashingPairs (nfa : Nfa) (catalog : Catalog) : List (Sym2 ActionId) :=
  (nfa.exploreSubsets none).nodes.toList.flatMap fun set =>
    (Resolution.ofSet catalog nfa set).clashes.map fun p => s(p.1, p.2)

theorem map_pair_clashesFrom {id : Nat} {rs : List Resolution} :
    (clashesFrom id rs).map Clash.Found.pair =
      rs.flatMap fun r => r.clashes.map fun p => s(p.1, p.2) := by
  induction rs generalizing id with
  | nil => rfl
  | cons r rs ih =>
    rw [clashesFrom, List.map_append, ih, List.flatMap_cons, List.map_map]
    rfl

theorem mem_clashesFrom {id : Nat} {rs : List Resolution} {c : Clash.Found} :
    c ∈ clashesFrom id rs ↔
      ∃ i r, rs[i]? = some r ∧ c.state = id + i ∧ (c.first, c.second) ∈ r.clashes := by
  induction rs generalizing id with
  | nil => simp [clashesFrom]
  | cons r rs ih =>
    rw [clashesFrom, List.mem_append, ih]
    constructor
    · rintro (h | ⟨i, r', hr', hstate, hmem⟩)
      · obtain ⟨p, hp, rfl⟩ := List.mem_map.1 h
        exact ⟨0, r, rfl, rfl, hp⟩
      · exact ⟨i + 1, r', hr', by omega, hmem⟩
    · rintro ⟨i, r', hr', hstate, hmem⟩
      cases i with
      | zero =>
        obtain rfl := Option.some.inj hr'
        exact .inl (List.mem_map.2 ⟨_, hmem, by cases c; simp_all⟩)
      | succ i => exact .inr ⟨i, r', hr', by omega, hmem⟩

/-- The clashes of an automaton as they are recorded. -/
def clashesFound (nfa : Nfa) (catalog : Catalog) : List Clash.Found :=
  clashesFrom 0 ((nfa.exploreSubsets none).nodes.toList.map (Resolution.ofSet catalog nfa))

theorem map_pair_clashesFound :
    (nfa.clashesFound catalog).map Clash.Found.pair = nfa.clashingPairs catalog := by
  rw [clashesFound, map_pair_clashesFrom, List.flatMap_map]
  rfl

theorem mem_clashesFound {c : Clash.Found} : c ∈ nfa.clashesFound catalog ↔
    ∃ set, (nfa.exploreSubsets none).nodes[c.state]? = some set ∧
      (c.first, c.second) ∈ (Resolution.ofSet catalog nfa set).clashes := by
  rw [clashesFound, mem_clashesFrom]
  constructor
  · rintro ⟨i, r, hr, hstate, hmem⟩
    rw [List.getElem?_map, Option.map_eq_some_iff, Array.getElem?_toList] at hr
    obtain ⟨set, hset, rfl⟩ := hr
    exact ⟨set, by rw [hstate, Nat.zero_add, hset], hmem⟩
  · rintro ⟨set, hset, hmem⟩
    refine ⟨c.state, _, ?_, (Nat.zero_add _).symm, hmem⟩
    rw [List.getElem?_map, Array.getElem?_toList, hset, Option.map_some]

/-! ## Ways and texts -/

/-- No transition of the graph is void. -/
theorem contains_lo_of_mem_graph {i : Nat} {t : Transition} (ht : t ∈ (nfa.graph none).getD i []) :
    t.contains t.lo = true :=
  CharRange.contains_iff.2 ⟨Nat.le_refl _, (sorted_graph i).2 t ht⟩

theorem target_lt_size_graph (i : Nat) :
    ∀ t ∈ (nfa.graph none).getD i [], t.target < (nfa.graph none).size := by
  intro t ht
  have hlo := contains_lo_of_mem_graph ht
  obtain ⟨-, -, next, hnext, -⟩ := rowEdge_graph.1 (show RowEdge (nfa.graph none) i (some t.lo)
    t.target from ⟨t, ht, hlo, rfl⟩)
  rw [size_graph]
  exact (Array.getElem?_eq_some_iff.1 hnext).1

theorem size_graph_pos : 0 < (nfa.graph none).size := by
  rw [size_graph]
  exact (Array.getElem?_eq_some_iff.1 (sound_exploreSubsets nfa none).1.root_eq).1

/-- The text has for each transition of a way one of its characters. -/
def Passes (ts : List Transition) (w : List Char) : Prop :=
  List.Forall₂ (fun t c => t.contains c = true) ts w

theorem passes_concat {ts : List Transition} {t : Transition} {w : List Char} :
    Passes (ts ++ [t]) w ↔ ∃ v c, w = v ++ [c] ∧ Passes ts v ∧ t.contains c = true := by
  constructor
  · intro h
    induction ts generalizing w with
    | nil =>
      obtain ⟨c, rest, hc, hrest, rfl⟩ := List.forall₂_cons_left_iff.1 h
      obtain rfl := List.forall₂_nil_left_iff.1 hrest
      exact ⟨[], c, rfl, .nil, hc⟩
    | cons t' ts ih =>
      obtain ⟨c', rest, hc', hrest, rfl⟩ := List.forall₂_cons_left_iff.1 h
      obtain ⟨v, c, rfl, hv, hc⟩ := ih hrest
      exact ⟨c' :: v, c, rfl, .cons hc' hv, hc⟩
  · rintro ⟨v, c, rfl, hv, hc⟩
    exact List.rel_append hv (.cons hc .nil)

/-- Every text that passes a way leads where the way does. -/
theorem trail_of_way {rows : Array (List Transition)} {ts : List Transition} {i : Nat}
    (h : Search.Way rows ts i) {w : List Char} (hw : Passes ts w) :
    Trail (RowEdge rows) 0 w i := by
  induction h generalizing w with
  | nil =>
    obtain rfl := List.forall₂_nil_left_iff.1 hw
    exact .nil 0
  | @snoc ts i t _ ht ih =>
    obtain ⟨v, c, rfl, hv, hc⟩ := passes_concat.1 hw
    exact trail_row_snoc.2 ⟨i, ih hv, t, ht, hc, rfl⟩

/-- Every text passes some way to where it leads. -/
theorem exists_way {rows : Array (List Transition)} {w : List Char} {i : Nat}
    (h : Trail (RowEdge rows) 0 w i) : ∃ ts, Search.Way rows ts i ∧ Passes ts w := by
  induction w using List.reverseRecOn generalizing i with
  | nil =>
    obtain rfl := trail_row_nil.1 h
    exact ⟨[], .nil, .nil⟩
  | append_singleton w c ih =>
    obtain ⟨j, hj, t, ht, hc, rfl⟩ := trail_row_snoc.1 h
    obtain ⟨ts, hway, hpasses⟩ := ih hj
    exact ⟨ts ++ [t], hway.snoc ht, passes_concat.2 ⟨w, c, rfl, hpasses, hc⟩⟩

/-- Some text passes a way. -/
theorem exists_passes {ts : List Transition} {i : Nat}
    (h : Search.Way (nfa.graph none) ts i) : ∃ w, Passes ts w := by
  induction h with
  | nil => exact ⟨[], .nil⟩
  | @snoc ts i t _ ht ih =>
    obtain ⟨w, hw⟩ := ih
    exact ⟨w ++ [t.lo], passes_concat.2 ⟨w, t.lo, rfl, hw, contains_lo_of_mem_graph ht⟩⟩

/-- A text that leads to a state clashes as the set of that state does. -/
theorem clashesOn_of_trail {w : List Char} {i : Nat} {set : List Nat} {pair : Sym2 ActionId}
    (hset : (nfa.exploreSubsets none).nodes[i]? = some set)
    (h : Trail (RowEdge (nfa.graph none)) 0 w i) : nfa.ClashesOn catalog w pair ↔
      pair ∈ (Resolution.ofSet catalog nfa set).clashes.map fun p => s(p.1, p.2) := by
  obtain rfl : set = nfa.keptAt none w := Option.some.inj (hset.symm.trans (node_of_trail h).1)
  rw [ClashesOn, resolution, ofSet_keptAt]

/-- Where a pair clashes on a text, the state that the text leads to has the pair recorded. -/
theorem exists_found {w : List Char} {pair : Sym2 ActionId} (h : nfa.ClashesOn catalog w pair) :
    ∃ c ∈ nfa.clashesFound catalog, c.pair = pair ∧
      Trail (RowEdge (nfa.graph none)) 0 w c.state := by
  have hkept : nfa.keptAt none w ≠ [] := by
    intro hnil
    rw [ClashesOn, resolution_of_keptAt_nil hnil] at h
    cases h
  obtain ⟨i, hi⟩ := exists_trail hkept
  have hset := (node_of_trail hi).1
  obtain ⟨p, hp, rfl⟩ := List.mem_map.1 ((clashesOn_of_trail hset hi).1 h)
  exact ⟨⟨i, p.1, p.2⟩, mem_clashesFound.2 ⟨_, hset, hp⟩, rfl, hi⟩

/-! ## The report -/

/-- The search for the states of the compiled automaton. -/
def search (nfa : Nfa) : Search :=
  .ofRows (nfa.graph none)

/-- The way to a state that the search found. -/
def pathTo (nfa : Nfa) (i : Nat) : List Transition :=
  nfa.search.wayTo (Search.linked_ofRows (nfa.graph none)) i

theorem shortest_pathTo {ts : List Transition} {i : Nat}
    (h : Search.Way (nfa.graph none) ts i) :
    Search.Way (nfa.graph none) (nfa.pathTo i) i ∧ (nfa.pathTo i).length = nfa.search.depth i ∧
      nfa.search.depth i ≤ ts.length ∧ Relation.ReflTransGen nfa.search.Parent i 0 :=
  Search.shortest size_graph_pos target_lt_size_graph h

/-- The entry for a clash. -/
def entryOf (nfa : Nfa) (catalog : Catalog) (c : Clash.Found) : Clash where
  first := catalog.describe c.first
  second := catalog.describe c.second
  path := String.join ((nfa.pathTo c.state).map Transition.text)

/-- An entry of a report stands for a clash: it has the names of the two actions, which clash in
some state in that order, and the path to the state. -/
structure Reported (nfa : Nfa) (catalog : Catalog) (c : Clash.Found) (entry : Clash) : Prop where
  first : entry.first = catalog.describe c.first
  second : entry.second = catalog.describe c.second
  /-- The pair clashed in this very state. -/
  clashed : ∃ set, (nfa.exploreSubsets none).nodes[c.state]? = some set ∧
    (c.first, c.second) ∈ (Resolution.ofSet catalog nfa set).clashes
  /-- The path is that of a shortest text on which the pair clashes. -/
  path : ∃ ts, entry.path = String.join (ts.map Transition.text) ∧
    Search.Way (nfa.graph none) ts c.state ∧
    (∀ w, Passes ts w → nfa.ClashesOn catalog w c.pair) ∧
    IsLeast {n | ∃ w, nfa.ClashesOn catalog w c.pair ∧ w.length = n} ts.length
  /-- The walk from parent to parent ends at state 0. -/
  back : Relation.ReflTransGen nfa.search.Parent c.state 0

/-- The clashes that the report stands for. -/
def clashesKept (nfa : Nfa) (catalog : Catalog) : List Clash.Found :=
  Clash.nearest nfa.search.depth (nfa.clashesFound catalog)

theorem map_pair_clashesKept :
    (nfa.clashesKept catalog).map Clash.Found.pair = (nfa.clashingPairs catalog).eraseDups := by
  rw [clashesKept, Clash.map_pair_nearest, map_pair_clashesFound]

theorem clashesKept_ne_nil (h : nfa.clashingPairs catalog ≠ []) : nfa.clashesKept catalog ≠ [] := by
  rw [← map_pair_clashesFound, ne_eq, List.map_eq_nil_iff] at h
  exact Clash.nearest_ne_nil h

/-- The pairs that clash in some state are those that clash on some text. -/
theorem mem_clashingPairs {pair : Sym2 ActionId} :
    pair ∈ nfa.clashingPairs catalog ↔ ∃ w, nfa.ClashesOn catalog w pair := by
  rw [← map_pair_clashesFound]
  constructor
  · intro hpair
    obtain ⟨c, hc, rfl⟩ := List.mem_map.1 hpair
    obtain ⟨set, hset, hmem⟩ := mem_clashesFound.1 hc
    obtain ⟨hlt, -⟩ := Array.getElem?_eq_some_iff.1 hset
    obtain ⟨w, hw⟩ := exists_text hlt
    exact ⟨w, (clashesOn_of_trail hset hw).2 (List.mem_map.2 ⟨_, hmem, rfl⟩)⟩
  · rintro ⟨w, hw⟩
    obtain ⟨c, hc, rfl, -⟩ := exists_found hw
    exact List.mem_map_of_mem hc

/-- What is kept for a pair is reported with a shortest path. -/
theorem reported_of_mem {c : Clash.Found} (h : c ∈ nfa.clashesKept catalog) :
    nfa.Reported catalog c (nfa.entryOf catalog c) := by
  obtain ⟨hfound, hmin⟩ := Clash.mem_nearest h
  obtain ⟨set, hset, hmem⟩ := mem_clashesFound.1 hfound
  obtain ⟨hlt, -⟩ := Array.getElem?_eq_some_iff.1 hset
  have hpair : c.pair ∈ (Resolution.ofSet catalog nfa set).clashes.map fun p => s(p.1, p.2) :=
    List.mem_map.2 ⟨_, hmem, rfl⟩
  obtain ⟨w, hw⟩ := exists_text hlt
  obtain ⟨ts, hts, -⟩ := exists_way hw
  obtain ⟨hway, hlength, -, hback⟩ := shortest_pathTo hts
  have hpasses : ∀ w, Passes (nfa.pathTo c.state) w → nfa.ClashesOn catalog w c.pair :=
    fun w hw => (clashesOn_of_trail hset (trail_of_way hway hw)).2 hpair
  refine ⟨rfl, rfl, ⟨set, hset, hmem⟩, ⟨_, rfl, hway, hpasses, ?_, ?_⟩, hback⟩
  · obtain ⟨w, hw⟩ := exists_passes hway
    exact ⟨w, hpasses w hw, hw.length_eq.symm⟩
  · rintro n ⟨w, hclash, rfl⟩
    -- the text leads to a state that has the pair recorded, and this one is no nearer
    obtain ⟨c', hc', heq, htrail⟩ := exists_found hclash
    obtain ⟨ts', hts', hpasses'⟩ := exists_way htrail
    obtain ⟨-, -, hle, -⟩ := shortest_pathTo hts'
    rw [hlength, ← hpasses'.length_eq]
    exact (hmin c' hc' heq).trans hle

/-- The entries that compiling ends with if there are clashes. -/
def clashReport (nfa : Nfa) (catalog : Catalog) : List Clash :=
  (nfa.clashesKept catalog).map (nfa.entryOf catalog)

theorem reported (nfa : Nfa) (catalog : Catalog) :
    List.Forall₂ (nfa.Reported catalog) (nfa.clashesKept catalog) (nfa.clashReport catalog) := by
  rw [clashReport, List.forall₂_map_right_iff, List.forall₂_same]
  exact fun c hc => reported_of_mem hc

theorem report_eq (nfa : Nfa) (catalog : Catalog) :
    Clash.report catalog ((nfa.exploreSubsets none).edges.map nfa.rowOf)
      (nfa.clashesFound catalog) = nfa.clashReport catalog := by
  rw [map_rowOf]
  rfl

/-- Compiling fails with the report, if there is anything to report. -/
theorem compile_eq_error_iff {clashes : List Clash} :
    nfa.compile catalog failPolicy eofAction = .error clashes ↔
      nfa.clashingPairs catalog ≠ [] ∧ clashes = nfa.clashReport catalog := by
  rw [compile_eq, compiledStates, ← report_eq, ← map_pair_clashesFound, ne_eq, List.map_eq_nil_iff]
  split
  · next hnil =>
    refine iff_of_false ?_ fun h => h.1 hnil
    split
    · intro h
      cases h
    · intro h
      cases h
  · next hne => exact ⟨fun h => ⟨hne, (Except.error.inj h).symm⟩, fun h => congrArg _ h.2.symm⟩

/-- If actions clash in some state, whatever it is that reconciles actions, compiling fails with a
report. The report has one entry for each unordered pair that clashed in some state, in the order
in which the pairs were first met, and no other; the entry stands for a clash of that pair, with a
path as short as the shortest text on which the pair clashes. -/
theorem report_exact (nfa : Nfa) (catalog : Catalog) (failPolicy : FailPolicy)
    (eofAction : Option ActionId) (h : nfa.clashingPairs catalog ≠ []) :
    ∃ clashes kept, nfa.compile catalog failPolicy eofAction = .error clashes ∧ clashes ≠ [] ∧
      List.Forall₂ (nfa.Reported catalog) kept clashes ∧
      kept.map Clash.Found.pair = (nfa.clashingPairs catalog).eraseDups ∧
      (∀ pair, pair ∈ nfa.clashingPairs catalog ↔ ∃ w, nfa.ClashesOn catalog w pair) ∧
      nfa.search.edge? 0 = none := by
  refine ⟨_, _, compile_eq_error_iff.2 ⟨h, rfl⟩, ?_, nfa.reported catalog, map_pair_clashesKept,
    fun pair => mem_clashingPairs, Search.edge?_zero size_graph_pos target_lt_size_graph⟩
  exact fun hnil => clashesKept_ne_nil h (List.map_eq_nil_iff.1 hnil)

/-- A pair that clashes on a single character only is reported with this character. -/
theorem Reported.path_of_unique {k : Clash.Found} {entry : Clash} {c : Char}
    (h : nfa.Reported catalog k entry) (honly : ∀ w, nfa.ClashesOn catalog w k.pair → w = [c]) :
    entry.path = Escape.char c := by
  obtain ⟨ts, hpath, hway, hpasses, -⟩ := h.path
  have htext : ∀ w, Passes ts w → w = [c] := fun w hw => honly w (hpasses w hw)
  obtain ⟨w, hw⟩ := exists_passes hway
  obtain rfl := htext w hw
  obtain ⟨t, rest, ht, hrest, rfl⟩ := List.forall₂_cons_right_iff.1 hw
  obtain rfl := List.forall₂_nil_right_iff.1 hrest
  have hshown := Transition.text_of_unique ht fun c' hc' =>
    List.singleton_injective (htext [c'] (.cons hc' .nil))
  rw [hpath, List.map_singleton, hshown]
  exact String.empty_append

/-- Where only one pair clashes, the report has one entry. -/
theorem exists_single_entry {kept : List Clash.Found} {clashes : List Clash}
    {pairs : List (Sym2 ActionId)} {pair : Sym2 ActionId}
    (hreported : List.Forall₂ (nfa.Reported catalog) kept clashes)
    (hkept : kept.map Clash.Found.pair = pairs.eraseDups) (hne : clashes ≠ [])
    (honly : ∀ p ∈ pairs, p = pair) :
    ∃ k entry, clashes = [entry] ∧ nfa.Reported catalog k entry := by
  have hall : ∀ p ∈ kept.map Clash.Found.pair, p = pair := by
    intro p hp
    rw [hkept, List.mem_eraseDups] at hp
    exact honly p hp
  have hlength : (kept.map Clash.Found.pair).length ≤ 1 := by
    have hnodup : (kept.map Clash.Found.pair).Nodup := hkept ▸ nodup_eraseDups _
    rw [List.eq_replicate_of_mem hall] at hnodup
    exact List.nodup_replicate.1 hnodup
  cases hreported with
  | nil => exact absurd rfl hne
  | @cons k entry _ _ hentry hothers =>
    cases hothers with
    | cons => simp at hlength
    | nil => exact ⟨k, entry, rfl, hentry⟩

/-- A single character has two actions, which always clash; the report has one entry, and its path
is the character. -/
theorem report_exact_sameChar :
    let catalog : Catalog := ⟨fun _ => 0, fun _ _ => .clash, fun a => [a], fun _ => ""⟩
    let armed (a : ActionId) : Nfa := (literal {} "\n").addAction a
    ∃ whole entry, (armed 0).or (armed 1) = .ok whole ∧
      whole.compile catalog .copy none = .error [entry] ∧ entry.path = "\\n" := by
  intro catalog armed
  have hwf : ∀ a, (armed a).WellFormed := wellFormed_addAction (wellFormed_literal {} "\n")
  obtain ⟨whole, hwhole⟩ : ∃ whole, (armed 0).or (armed 1) = .ok whole :=
    exists_or_eq_ok (Nat.zero_le _)
  have hactions : ∀ w b, b ∈ whole.actions w ↔ (b = 0 ∨ b = 1) ∧ w = ['\n'] := by
    intro w b
    rw [mem_actions_or (hwf 0) (hwf 1) hwhole, mem_actions_literal_addAction,
      mem_actions_literal_addAction]
    exact or_and_right.symm
  have hmerge : ∀ w, catalog.MergesByPriorityAmong (whole.actions w) := fun _ _ _ _ _ => rfl
  have hpair : ∀ w pair, whole.ClashesOn catalog w pair → pair = s(0, 1) ∧ w = ['\n'] := by
    intro w pair h
    obtain ⟨p, hp, rfl⟩ := List.mem_map.1 h
    obtain ⟨hfirst, hsecond, hne⟩ := foremost_of_mem_clashes (hmerge w) hp
    obtain ⟨hfirst, hw⟩ := (hactions w _).1 hfirst.mem
    obtain ⟨hsecond, -⟩ := (hactions w _).1 hsecond.mem
    refine ⟨?_, hw⟩
    rcases hfirst with hfirst | hfirst
    · rw [hfirst, hsecond.resolve_left fun h => hne (hfirst.trans h.symm)]
    · rw [hfirst, hsecond.resolve_right fun h => hne (hfirst.trans h.symm), Sym2.eq_swap]
  have hclash : whole.clashingPairs catalog ≠ [] := by
    have hne : (whole.resolution catalog ['\n']).clashes ≠ [] := by
      rw [ne_eq, clashes_resolution_eq_nil_iff (hmerge _)]
      rintro (hnone | ⟨a, ha⟩)
      · have hmem : 0 ∈ whole.actions ['\n'] := (hactions _ 0).2 ⟨.inl rfl, rfl⟩
        rw [hnone] at hmem
        exact hmem
      · have h₀ := ha.greater 0 ((hactions _ 0).2 ⟨.inl rfl, rfl⟩)
        have h₁ := ha.greater 1 ((hactions _ 1).2 ⟨.inr rfl, rfl⟩)
        rcases eq_or_ne 0 a with rfl | hne
        · exact lt_irrefl _ (h₁ (by decide))
        · exact lt_irrefl _ (h₀ hne)
    obtain ⟨p, hp⟩ := List.exists_mem_of_ne_nil _ hne
    have hmem : s(p.1, p.2) ∈ whole.clashingPairs catalog :=
      mem_clashingPairs.2 ⟨['\n'], List.mem_map.2 ⟨p, hp, rfl⟩⟩
    exact List.ne_nil_of_mem hmem
  obtain ⟨clashes, kept, hcompile, hnonempty, hreported, hkept, hpairs, -⟩ :=
    report_exact whole catalog .copy none hclash
  have honly : ∀ p ∈ whole.clashingPairs catalog, p = s(0, 1) := by
    intro p hp
    obtain ⟨w, hw⟩ := (hpairs p).1 hp
    exact (hpair w p hw).1
  obtain ⟨k, entry, rfl, hentry⟩ := exists_single_entry hreported hkept hnonempty honly
  refine ⟨whole, entry, hwhole, hcompile, ?_⟩
  rw [hentry.path_of_unique fun w hw => (hpair w _ hw).2]
  rfl

end Nfa

end LongestMatch
