import LongestMatch.Proofs.Listings

/-!
# Where the reporting groups of a pattern stand

The groups of a pattern are numbered from left to right, a group after those inside it. A repetition
with bounds stands for copies of its operand, each with groups of its own, and of the operand of a
complement or the like no group is left. `Tree.sites` lists the places at which groups stand by
their numbers: for each the texts after which a path may begin the group, and the texts of the
group.

An option is passed over without a state of its own: a path goes straight from where the option
begins to where it ends. If it ends with a group, the path ends that group, too, without having been
inside it. Such a site is `skipped`.

* `Outline` — a language and the sites in it; `outlines` has the operations of patterns on them.
* `Tree.Of.eval_outlines` — the value of a tree among the outlines is made up of its language and
  its sites.
* `Tree.Of.map_whole_sites` — the texts of the sites are the languages of the groups that the tree
  lists.
-/

namespace LongestMatch

open scoped Computability

namespace Pattern

/-! ## Sites -/

/-- A place in a pattern at which a reporting group stands. -/
structure Site where
  /-- The texts after which a path may begin the group. -/
  before : Language Char
  /-- The texts of the group. -/
  whole : Language Char
  /-- Whether paths end where the group ends. -/
  closes : Bool := true
  /-- Whether an option that ends with the group may be passed over. -/
  skipped : Bool := false
  /-- Whether paths begin the group with a character. -/
  direct : Bool := false

namespace Site

/-- The site behind texts of a language. -/
def after (L : Language Char) (s : Site) : Site :=
  { s with before := L * s.before }

/-- The site where something may follow. -/
def goOn (s : Site) : Site :=
  { s with closes := false }

/-- The site in an option. -/
def pass (s : Site) : Site :=
  { s with skipped := s.skipped || s.closes }

/-- The texts with which a text of the group begins. -/
def begun (s : Site) : Language Char :=
  {u | ∃ v, u ++ v ∈ s.whole}

/-- The texts after which a path may be inside the group. -/
def inside (s : Site) : Language Char :=
  {u | u ∈ s.begun ∧ (s.direct = true → u ≠ [])}

theorem after_after (L M : Language Char) (s : Site) :
    (s.after M).after L = s.after (L * M) := by
  rw [after, after, after, mul_assoc]

end Site

/-! ## Outlines -/

/-- A language and the sites of the groups in it, by their numbers. -/
@[ext]
structure Outline where
  language : Language Char
  sites : List Site := []
  /-- Whether paths begin with a character. -/
  direct : Bool := false

/-- The operations of patterns on outlines. -/
def outlines : Algebra Outline where
  set ranges inverted := { language := languages.set ranges inverted, direct := true }
  any := { language := languages.any, direct := true }
  text cs := { language := languages.text cs, direct := !cs.isEmpty }
  or x y :=
    { language := x.language + y.language
      sites := x.sites.map Site.goOn ++ y.sites.map Site.goOn }
  seq x y :=
    { language := x.language * y.language
      sites := x.sites.map Site.goOn ++ y.sites.map (Site.after x.language)
      direct := x.direct }
  unary op x :=
    { language := op.language x.language
      sites :=
        match op with
        | .star => x.sites.map fun s => (s.after x.language∗).goOn
        | .plus => x.sites.map fun s => (s.after x.language∗).goOn
        | .optional => x.sites.map Site.pass
        | _ => []
      direct := op = .allPrefixes }
  group x :=
    { x with sites := x.sites ++ [{ before := 1, whole := x.language, direct := x.direct }] }

/-- Whether paths through a tree begin with a character, as they do where it begins with one, or
with prefixes. -/
def Tree.direct : Tree → Bool
  | group _ t => t.direct
  | unary op _ => op = .allPrefixes
  | times min _ t => 0 < min && t.direct
  | seq s _ => s.direct
  | or _ _ => false
  | _ => true

/-- The sites of a tree. Where a part is repeated with bounds, these are the sites of the copies. -/
def Tree.sites : Tree → List Site
  | group report t =>
    t.sites ++ if report then [{ before := 1, whole := t.language, direct := t.direct }] else []
  | unary op t => (outlines.unary op ⟨t.language, t.sites, t.direct⟩).sites
  | times min max t => (outlines.times min max ⟨t.language, t.sites, t.direct⟩).sites
  | seq s t => (outlines.seq ⟨s.language, s.sites, s.direct⟩ ⟨t.language, t.sites, t.direct⟩).sites
  | or s t => (outlines.or ⟨s.language, s.sites, s.direct⟩ ⟨t.language, t.sites, t.direct⟩).sites
  | _ => []

/-- What the operations make of a tree, if nothing but bounds make a difference. -/
def Tree.outline (t : Tree) : Outline :=
  ⟨t.language, t.sites, t.direct⟩

theorem lawful_outlines : outlines.Lawful := by
  constructor
  · intro u v hu hv
    apply Outline.ext
    · exact singleton_mul_singleton u v
    · rfl
    · show (!u.isEmpty) = !(u ++ v).isEmpty
      rw [List.isEmpty_eq_false_iff.2 hu,
        List.isEmpty_eq_false_iff.2 (List.append_ne_nil_of_left_ne_nil hu v)]
  · intro x y z
    apply Outline.ext
    · exact mul_assoc _ _ _
    · have hafter : Site.after x.language ∘ Site.after y.language =
          Site.after (x.language * y.language) :=
        funext fun s => Site.after_after _ _ s
      simp only [outlines, List.map_append, List.map_map, List.append_assoc, hafter]
      rfl
    · rfl

/-! ## The outline of a tree -/

theorem relates_outlines_languages :
    outlines.Relates languages fun x l => x.language = l := by
  constructor
  case or | seq => rintro x y _ _ rfl rfl; rfl
  case unary => rintro op x _ rfl; rfl
  case group => rintro x _ rfl; rfl
  all_goals intros; rfl

theorem direct_iterate_seq (x y : Outline) (n : Nat) :
    ((outlines.seq x)^[n] y).direct = if n = 0 then y.direct else x.direct := by
  cases n with
  | zero => rfl
  | succ n =>
    rw [Function.iterate_succ_apply', if_neg (Nat.succ_ne_zero n)]
    rfl

/-- Options do not begin with a character. -/
theorem direct_iterate_optional (x : Outline) (n : Nat) :
    ((fun y => outlines.unary .optional (outlines.seq x y))^[n]
      (outlines.unary .optional x)).direct = false := by
  cases n with
  | zero => rfl
  | succ n =>
    rw [Function.iterate_succ_apply']
    rfl

theorem direct_times {ks : List Glyph.Kind} {min : Nat} {max : Option Nat}
    (h : Bounds ks min max) (x : Outline) :
    (outlines.times min max x).direct = (0 < min && x.direct) := by
  have hzero : ∀ n : Nat, (if n = 0 then false else x.direct) = (0 < n && x.direct) := by
    intro n
    cases n <;> simp
  have hexactly : ∀ {n : Nat}, 1 ≤ n →
      ((outlines.seq x)^[n - 1] x).direct = (0 < n && x.direct) := by
    intro n hn
    rw [direct_iterate_seq, ite_self]
    simp [Nat.lt_of_lt_of_le Nat.zero_lt_one hn]
  cases h with
  | exact _ hm =>
    rw [Algebra.times, if_neg (Nat.lt_irrefl _)]
    exact hexactly hm
  | between _ _ hn hle =>
    rw [Algebra.times]
    split
    · rw [direct_iterate_seq, direct_iterate_optional]
      exact hzero min
    · exact hexactly (by omega)
  | atLeast _ =>
    have hstar : (outlines.unary .star x).direct = false := rfl
    rw [Algebra.times, direct_iterate_seq, hstar]
    exact hzero min

/-- The value of a derived tree is its outline. -/
theorem Derives.eval_outlines {category : Category} {ks : List Glyph.Kind} {t : Tree}
    (h : Derives category ks t) : outlines.eval t = t.outline := by
  induction h with
  | plain | escape | any | set => rfl
  | @group _ t _ ih =>
    apply ih.trans
    rw [Tree.outline, ← List.append_nil t.sites]
    rfl
  | @report _ t _ ih =>
    show outlines.group (outlines.eval t) = _
    rw [ih]
    rfl
  | atom _ ih => exact ih
  | @unary _ t op _ ih =>
    show outlines.unary op (outlines.eval t) = _
    rw [ih]
    rfl
  | @times _ _ min max t _ hb ih =>
    show outlines.times min max (outlines.eval t) = _
    rw [ih]
    apply Outline.ext
    · exact (relates_outlines_languages.times min max rfl).trans
        (times_languages hb.inOrder t.language)
    · rfl
    · exact direct_times hb t.outline
  | factor _ ih => exact ih
  | @seq _ _ s t _ _ ihs iht =>
    show outlines.seq (outlines.eval s) (outlines.eval t) = _
    rw [ihs, iht]
    rfl
  | sequence _ ih => exact ih
  | @or _ _ s t _ _ ihs iht =>
    show outlines.or (outlines.eval s) (outlines.eval t) = _
    rw [ihs, iht]
    rfl

theorem Tree.Of.eval_outlines {t : Tree} {pattern : String} (h : t.Of pattern) :
    outlines.eval t = t.outline := by
  obtain ⟨ks, -, hderives⟩ := h
  exact hderives.eval_outlines

/-! ## Sites and groups -/

/-- No operation changes what the groups match, and all list the groups in the same order. -/
theorem relates_outlines_listings : outlines.Relates listings fun x y =>
    x.language = y.language ∧ x.sites.map Site.whole = y.groups := by
  constructor
  case or | seq =>
    rintro x y u v ⟨hx, hxs⟩ ⟨hy, hys⟩
    simp [outlines, listings, ← hx, ← hxs, ← hy, ← hys, Function.comp_def, Site.goOn, Site.after]
  case unary =>
    rintro op x u ⟨hx, hxs⟩
    cases op <;>
      simp [outlines, listings, ← hx, ← hxs, Unary.keepsGroups, Function.comp_def, Site.goOn,
        Site.after, Site.pass]
  case group =>
    rintro x u ⟨hx, hxs⟩
    simp [outlines, listings, ← hx, ← hxs]
  all_goals
    intros
    exact ⟨rfl, rfl⟩

/-- The sites of a tree are those of its groups, one after the other. -/
theorem Tree.Of.map_whole_sites {t : Tree} {pattern : String} (h : t.Of pattern) :
    t.sites.map Site.whole = t.groups.map Tree.language := by
  obtain ⟨-, hwhole⟩ := relates_outlines_listings.eval t
  rwa [h.eval_outlines, h.eval_listings] at hwhole

end Pattern

end LongestMatch
