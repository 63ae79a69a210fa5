import LongestMatch.Proofs.Effects

/-!
# The reporting groups of a pattern

The groups of a pattern are listed from left to right, a group after those inside it
(`Tree.groups`). A repetition with bounds lists the groups of its operand as often as copies of the
operand are made, and of the operand of a complement or the like no group is left. The list of no
part of a pattern may be too long, not even where its groups are lost later (`Tree.Fits`).

* `Listing` — a language and the groups in it; `listings` has the operations of patterns on them.
* `Listing.copies_times` — the listing of a repetition, by the number of copies.
* `Tree.Of.eval_listings` — the value of a tree among the listings has its language and its groups,
  and says whether it fits.
-/

namespace LongestMatch

open scoped Computability

namespace Pattern

/-! ## Groups -/

/-- Whether the groups of the operand are still groups of the result. -/
def Unary.keepsGroups : Unary → Bool
  | star | plus | optional => true
  | withoutMatch | invert | shortest | allPrefixes => false

/-- How many copies of its operand a repetition with bounds is made of. Without an upper bound a
last one is there for all further rounds. -/
def copyCount (min : Nat) (max : Option Nat) : Nat :=
  max.getD (min + 1)

/-- What is inside the reporting groups of a tree, in the order of the groups. -/
def Tree.groups : Tree → List Tree
  | plain _ | escape _ | any | set _ _ => []
  | group report t => if report then t.groups ++ [t] else t.groups
  | unary op t => if op.keepsGroups then t.groups else []
  | times min max t => (List.replicate (copyCount min max) t.groups).flatten
  | seq s t | or s t => s.groups ++ t.groups

/-- The tree and all trees in it. -/
def Tree.parts : Tree → List Tree
  | group report t => group report t :: t.parts
  | unary op t => unary op t :: t.parts
  | times min max t => times min max t :: t.parts
  | seq s t => seq s t :: (s.parts ++ t.parts)
  | or s t => or s t :: (s.parts ++ t.parts)
  | t => [t]

/-- No part of the tree has too many groups. -/
def Tree.Fits (t : Tree) : Prop :=
  ∀ s ∈ t.parts, s.groups.length ≤ maxGroups

theorem Tree.mem_parts_self (t : Tree) : t ∈ t.parts := by
  cases t <;> exact List.mem_cons_self

theorem Tree.Fits.length_le {t : Tree} (h : t.Fits) : t.groups.length ≤ maxGroups :=
  h t t.mem_parts_self

theorem Tree.fits_of_parts_eq_one {t : Tree} (h : t.parts = [t]) (hgroups : t.groups = []) :
    t.Fits := by
  rw [Fits, h, List.forall_mem_singleton, hgroups]
  exact Nat.zero_le _

theorem Tree.fits_iff_of_unary {t s : Tree} (h : t.parts = t :: s.parts) :
    t.Fits ↔ s.Fits ∧ t.groups.length ≤ maxGroups := by
  rw [Fits, h, List.forall_mem_cons, and_comm]
  rfl

theorem Tree.fits_iff_of_binary {t r s : Tree} (h : t.parts = t :: (r.parts ++ s.parts)) :
    t.Fits ↔ r.Fits ∧ s.Fits ∧ t.groups.length ≤ maxGroups := by
  rw [Fits, h, List.forall_mem_cons, List.forall_mem_append, and_comm, and_assoc]
  rfl

/-! ## Listings -/

/-- A language, the languages of the groups in it, and whether there were never too many. -/
@[ext]
structure Listing where
  language : Language Char
  groups : List (Language Char) := []
  fits : Prop := True

/-- The operations of patterns on listings. -/
def listings : Algebra Listing where
  set ranges inverted := { language := languages.set ranges inverted }
  any := { language := languages.any }
  text cs := { language := languages.text cs }
  or x y :=
    { language := x.language + y.language
      groups := x.groups ++ y.groups
      fits := x.fits ∧ y.fits ∧ (x.groups ++ y.groups).length ≤ maxGroups }
  seq x y :=
    { language := x.language * y.language
      groups := x.groups ++ y.groups
      fits := x.fits ∧ y.fits ∧ (x.groups ++ y.groups).length ≤ maxGroups }
  unary op x :=
    { language := op.language x.language
      groups := if op.keepsGroups then x.groups else []
      fits := x.fits }
  group x :=
    { language := x.language
      groups := x.groups ++ [x.language]
      fits := x.fits ∧ (x.groups ++ [x.language]).length ≤ maxGroups }

theorem lawful_listings : listings.Lawful := by
  constructor
  · intro u v hu hv
    apply Listing.ext
    · exact singleton_mul_singleton u v
    · rfl
    · exact propext (iff_of_true ⟨trivial, trivial, Nat.zero_le _⟩ trivial)
  · intro x y z
    apply Listing.ext
    · exact mul_assoc _ _ _
    · exact List.append_assoc _ _ _
    · -- what is part of a whole that fits need not be looked at
      apply propext
      simp only [listings, List.length_append]
      constructor
      · rintro ⟨⟨hx, hy, -⟩, hz, hle⟩
        exact ⟨hx, ⟨hy, hz, by omega⟩, by omega⟩
      · rintro ⟨hx, ⟨hy, hz, -⟩, hle⟩
        exact ⟨⟨hx, hy, by omega⟩, hz, by omega⟩

/-! ## Repetitions -/

namespace Listing

variable {x y : Listing} {n k : Nat}

/-- The groups of `y` are those of some copies of `x`, and `y` fits if `x` does and these are not
too many. -/
structure Copies (x : Listing) (n : Nat) (y : Listing) : Prop where
  groups_eq : y.groups = (List.replicate n x.groups).flatten
  fits_iff : y.fits ↔ x.fits ∧ y.groups.length ≤ maxGroups

/-- One more copy in front. -/
theorem Copies.seq (h : x.Copies n y) : x.Copies (n + 1) (listings.seq x y) := by
  constructor
  · rw [List.replicate_succ, List.flatten_cons, ← h.groups_eq]
    rfl
  · simp only [listings, h.fits_iff, List.length_append]
    constructor
    · rintro ⟨hx, -, hle⟩
      exact ⟨hx, hle⟩
    · rintro ⟨hx, hle⟩
      exact ⟨hx, ⟨hx, by omega⟩, hle⟩

theorem Copies.unary (h : x.Copies n y) (op : Unary) (hop : op.keepsGroups = true) :
    x.Copies n (listings.unary op y) := by
  have hgroups : (listings.unary op y).groups = y.groups := if_pos hop
  exact ⟨hgroups.trans h.groups_eq, hgroups.symm ▸ h.fits_iff⟩

theorem Copies.iterate (h : x.Copies n y) {f : Listing → Listing}
    (hf : ∀ {n y}, x.Copies n y → x.Copies (n + 1) (f y)) (k : Nat) :
    x.Copies (n + k) (f^[k] y) := by
  induction k with
  | zero => exact h
  | succ k ih =>
    rw [Function.iterate_succ_apply']
    exact hf ih

/-- A repetition is made of as many copies as its bounds say, some of them in options or under a
star. -/
theorem copies_times {ks : List Glyph.Kind} {min : Nat} {max : Option Nat} (h : Bounds ks min max)
    (hx : x.fits → x.groups.length ≤ maxGroups) :
    x.Copies (copyCount min max) (listings.times min max x) := by
  have hone : x.Copies 1 x := ⟨by simp, (and_iff_left_of_imp hx).symm⟩
  have hseq : ∀ {n y}, x.Copies n y → x.Copies (n + 1) (listings.seq x y) := Copies.seq
  have hexactly : ∀ {m : Nat}, 1 ≤ m → x.Copies m ((listings.seq x)^[m - 1] x) := by
    intro m hm
    have hcopies := hone.iterate hseq (m - 1)
    rwa [Nat.add_sub_cancel' hm] at hcopies
  cases h with
  | exact _ hm =>
    rw [Algebra.times, if_neg (Nat.lt_irrefl _)]
    exact hexactly hm
  | @between _ _ _ n _ _ hn hle =>
    rw [Algebra.times]
    split
    · have hoptions := (hone.unary .optional rfl).iterate
        (fun h => h.seq.unary .optional rfl) (n - min - 1)
      have hcopies := hoptions.iterate hseq min
      have hsum : 1 + (n - min - 1) + min = n := by omega
      rwa [hsum] at hcopies
    · obtain rfl : min = n := by omega
      exact hexactly hn
  | atLeast _ =>
    have hcopies := (hone.unary .star rfl).iterate hseq min
    rwa [Nat.add_comm] at hcopies

end Listing

/-! ## The listing of a tree -/

/-- What the operations make of a tree. -/
def Tree.listing (t : Tree) : Listing :=
  ⟨t.language, t.groups.map Tree.language, t.Fits⟩

theorem Tree.length_map_groups (t : Tree) :
    (t.groups.map Tree.language).length ≤ maxGroups ↔ t.groups.length ≤ maxGroups := by
  rw [List.length_map]

/-- Two parts side by side. -/
theorem Tree.listing_of_binary {t r s : Tree} (hparts : t.parts = t :: (r.parts ++ s.parts))
    (hgroups : t.groups = r.groups ++ s.groups) :
    r.listing.groups ++ s.listing.groups = t.listing.groups ∧
      (r.Fits ∧ s.Fits ∧ (r.listing.groups ++ s.listing.groups).length ≤ maxGroups ↔ t.Fits) := by
  have hmap : r.listing.groups ++ s.listing.groups = t.listing.groups := by
    rw [listing, listing, listing, hgroups, List.map_append]
  refine ⟨hmap, ?_⟩
  rw [hmap, Tree.fits_iff_of_binary hparts]
  exact and_congr_right' (and_congr_right' t.length_map_groups)

theorem relates_listings_languages :
    listings.Relates languages fun x l => x.language = l := by
  constructor
  case or | seq => rintro x y _ _ rfl rfl; rfl
  case unary => rintro op x _ rfl; rfl
  case group => rintro x _ rfl; rfl
  all_goals intros; rfl

/-- The groups are listed as the tree lists them, and there were never too many if all parts of the
tree have few enough. -/
theorem Derives.eval_listings {category : Category} {ks : List Glyph.Kind} {t : Tree}
    (h : Derives category ks t) : listings.eval t = t.listing := by
  induction h with
  | plain | escape | any | set =>
    exact Listing.ext rfl rfl (propext (iff_of_true trivial (Tree.fits_of_parts_eq_one rfl rfl)))
  | @group _ t _ ih =>
    refine ih.trans (Listing.ext rfl rfl (propext ?_))
    show t.Fits ↔ (Tree.group false t).Fits
    rw [Tree.fits_iff_of_unary (t := .group false t) rfl]
    exact (and_iff_left_of_imp Tree.Fits.length_le).symm
  | @report _ t _ ih =>
    have hgroups : t.listing.groups ++ [t.language] = (Tree.group true t).listing.groups := by
      rw [Tree.listing, Tree.listing, Tree.groups, if_pos rfl, List.map_append]
      rfl
    show listings.group (listings.eval t) = _
    rw [ih]
    refine Listing.ext rfl hgroups (propext ?_)
    show t.Fits ∧ (t.listing.groups ++ [t.language]).length ≤ _ ↔ (Tree.group true t).Fits
    rw [hgroups, Tree.fits_iff_of_unary (t := .group true t) rfl]
    exact and_congr_right' (Tree.length_map_groups _)
  | atom _ ih => exact ih
  | @unary _ t op _ ih =>
    show listings.unary op (listings.eval t) = _
    rw [ih]
    refine Listing.ext rfl ?_ (propext ?_)
    · show (if op.keepsGroups then _ else []) = List.map _ (if op.keepsGroups then _ else [])
      split <;> rfl
    · show t.Fits ↔ (Tree.unary op t).Fits
      rw [Tree.fits_iff_of_unary (t := .unary op t) rfl]
      refine (and_iff_left_of_imp fun ht => ?_).symm
      rw [Tree.groups]
      split
      · exact ht.length_le
      · exact Nat.zero_le _
  | @times _ _ min max t _ hb ih =>
    obtain ⟨hgroups, hfits⟩ := Listing.copies_times (x := t.listing) hb fun ht =>
      t.length_map_groups.2 (Tree.Fits.length_le ht)
    have heq : (listings.times min max t.listing).groups =
        (Tree.times min max t).listing.groups := by
      rw [hgroups, Tree.listing, Tree.listing, Tree.groups, List.map_flatten, List.map_replicate]
    show listings.times min max (listings.eval t) = _
    rw [ih]
    refine Listing.ext ?_ heq (propext ?_)
    · exact (relates_listings_languages.times min max rfl).trans
        (times_languages hb.inOrder t.language)
    · show _ ↔ (Tree.times min max t).Fits
      rw [hfits, heq, Tree.fits_iff_of_unary (t := .times min max t) rfl]
      exact and_congr_right' (Tree.length_map_groups _)
  | factor _ ih => exact ih
  | @seq _ _ s t _ _ ihs iht =>
    obtain ⟨hgroups, hfits⟩ := Tree.listing_of_binary (t := .seq s t) rfl rfl
    show listings.seq (listings.eval s) (listings.eval t) = _
    rw [ihs, iht]
    exact Listing.ext rfl hgroups (propext hfits)
  | sequence _ ih => exact ih
  | @or _ _ s t _ _ ihs iht =>
    obtain ⟨hgroups, hfits⟩ := Tree.listing_of_binary (t := .or s t) rfl rfl
    show listings.or (listings.eval s) (listings.eval t) = _
    rw [ihs, iht]
    exact Listing.ext rfl hgroups (propext hfits)

theorem Tree.Of.eval_listings {t : Tree} {pattern : String} (h : t.Of pattern) :
    listings.eval t = t.listing := by
  obtain ⟨ks, -, hderives⟩ := h
  exact hderives.eval_listings

end Pattern

end LongestMatch
