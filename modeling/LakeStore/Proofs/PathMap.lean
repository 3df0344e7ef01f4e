import LakeStore.PathMap
import LakeStore.Proofs.Path.Below
import LakeStore.Proofs.Path.Order
import Mathlib.Data.List.Nodup

/-!
What lies below a path in a map. The entries below a directory, and its children among them, are
found by a scan of the sorted keys, in which siblings and keys further below stand between the
children. What lies below a directory are its children, each with what lies below it.
-/

namespace LakeStore

open StorePath

def descendantPrefix (directory : String) : String :=
  if directory = "/" then "/" else directory ++ "/"

def isChild (directory key : String) : Bool :=
  ((descendantPrefix directory).toList.isPrefixOf? key.toList).any fun rest =>
    rest ≠ [] ∧ '/' ∉ rest

theorem isChild_iff {directory key : String} :
    isChild directory key ↔
      ∃ name, name ≠ "" ∧ '/' ∉ name.toList ∧ key = descendantPrefix directory ++ name := by
  unfold isChild
  rw [Option.any_eq_true]
  simp only [List.isPrefixOf?_eq_some_iff_append_eq, decide_eq_true_eq]
  constructor
  . rintro ⟨rest, hkey, hne, hslash⟩
    refine ⟨String.ofList rest, by simpa using hne, by simpa using hslash, ?_⟩
    rw [← String.toList_inj, String.toList_append, String.toList_ofList, hkey]
  . rintro ⟨name, hne, hslash, rfl⟩
    exact ⟨name.toList, by rw [String.toList_append], by simpa using hne, hslash⟩

theorem descendantPrefix_text {path : StorePath} (h : path.Canonical) :
    descendantPrefix path.text = slashed path ++ "/" := by
  unfold descendantPrefix
  by_cases hnil : path = []
  . subst hnil
    rfl
  . have hne : path.text ≠ "/" := fun htext => hnil (eq_of_text_eq h canonical_nil htext)
    rw [if_neg hne, StorePath.text, rooted_of_ne_nil hnil]

theorem isChild_text_iff {path key : StorePath} (hpath : path.Canonical) (hkey : key.Canonical) :
    isChild path.text key.text ↔ ∃ name, key = path ++ [name] := by
  rw [isChild_iff, descendantPrefix_text hpath]
  constructor
  . rintro ⟨name, hne, hslash, htext⟩
    refine ⟨name, ?_⟩
    have hname : names name = [name] := by
      unfold names
      rw [pieces_of_notMem hslash]
      simp [hne]
    have hslashed : names (slashed path) = path := by
      rw [← String.empty_append (s := slashed path), names_append_slashed "" hpath]
      rfl
    rw [← names_text hkey, htext, names_append_slash, hslashed, hname]
  . rintro ⟨name, rfl⟩
    have hname : IsName name := hkey name (by simp)
    exact ⟨name, hname.nonempty, hname.noSlash, rooted_concat path name⟩

theorem descendantPrefix_prefix_iff {path key : StorePath} (hpath : path.Canonical)
    (hkey : key.Canonical) :
    (descendantPrefix path.text).toList <+: key.text.toList ∧ key.text ≠ "/" ↔ Below path key := by
  rw [descendantPrefix_text hpath]
  constructor
  . rintro ⟨⟨characters, htext⟩, hne⟩
    have hkeyText : key.text = slashed path ++ "/" ++ String.ofList characters := by
      rw [← String.toList_inj, ← htext, String.toList_append (t := String.ofList characters),
        String.toList_ofList]
    have hnames : key = path ++ names (String.ofList characters) := by
      have hslashed : names (slashed path) = path := by
        rw [← String.empty_append (s := slashed path), names_append_slashed "" hpath]
        rfl
      rw [← names_text hkey, hkeyText, names_append_slash, hslashed]
    refine ⟨hnames ▸ List.prefix_append _ _, ?_⟩
    rintro rfl
    have hnil : path ≠ [] := by
      rintro rfl
      exact hne rfl
    rw [StorePath.text, rooted_of_ne_nil hnil] at hkeyText
    have hlength := congrArg (·.toList.length) hkeyText
    simp only [String.toList_append, List.length_append] at hlength
    change (slashed path).toList.length = (slashed path).toList.length + 1 + _ at hlength
    omega
  . rintro ⟨⟨rest, rfl⟩, hne⟩
    cases rest with
    | nil => exact absurd (List.append_nil path).symm hne
    | cons name rest =>
      constructor
      . rw [StorePath.text, rooted_append_cons, String.toList_append (t := name ++ slashed rest)]
        exact List.prefix_append _ _
      . intro hroot
        have hnil := eq_of_text_eq hkey canonical_nil hroot
        simp at hnil

namespace PathMap

variable {β : Type}

theorem mem_cons_below_iff {map : PathMap β} {root key : StorePath} {value found : β}
    (hroot : map.get? root = some value) :
    (key, found) ∈ (root, value) :: map.below root ↔ root <+: key ∧ map.get? key = some found := by
  rw [List.mem_cons, mem_below_iff, prefix_iff_eq_or_below]
  constructor
  . rintro (heq | ⟨hbelow, hfound⟩)
    . cases heq
      exact ⟨.inl rfl, hroot⟩
    . exact ⟨.inr hbelow, hfound⟩
  . rintro ⟨rfl | hbelow, hfound⟩
    . rw [hroot, Option.some_inj] at hfound
      rw [hfound]
      exact .inl rfl
    . exact .inr ⟨hbelow, hfound⟩

theorem nodup_of_pairwise {entries : List (StorePath × β)} (h : entries.Pairwise Precedes) :
    entries.Nodup := by
  refine h.imp ?_
  rintro entry other hprecedes rfl
  exact hprecedes.1 rfl

theorem below_pairwise (map : PathMap β) (path : StorePath) : (map.below path).Pairwise Precedes :=
  map.sorted.filter _

theorem children_pairwise (map : PathMap β) (path : StorePath) :
    (map.children path).Pairwise Precedes :=
  (map.below_pairwise path).filter _

theorem nodup_cons_below (map : PathMap β) (root : StorePath) (value : β) :
    (((root, value) :: map.below root).map Prod.fst).Nodup := by
  rw [List.map_cons, List.nodup_cons]
  constructor
  . intro hroot
    rw [List.mem_map] at hroot
    obtain ⟨⟨key, found⟩, hentry, heq⟩ := hroot
    exact ((mem_below_iff _ _ _ _).mp hentry).1.2 heq.symm
  . rw [List.Nodup, List.pairwise_map]
    exact (map.below_pairwise root).imp fun hprecedes => hprecedes.1

def scan (map : PathMap β) (mark : String) : List (StorePath × β) :=
  (map.entries.dropWhile (·.1.text < mark)).takeWhile (mark.toList <+: ·.1.text.toList)

def descendants (map : PathMap β) (directory : String) : List (StorePath × β) :=
  (map.scan (descendantPrefix directory)).filter (·.1.text ≠ "/")

theorem takeWhile_eq_filter {mark : String} {entries : List (StorePath × β)}
    (hsorted : entries.Pairwise Precedes) (hmark : ∀ entry ∈ entries, mark ≤ entry.1.text) :
    entries.takeWhile (mark.toList <+: ·.1.text.toList) =
      entries.filter (mark.toList <+: ·.1.text.toList) := by
  induction entries with
  | nil => rfl
  | cons entry rest ih =>
    rw [List.pairwise_cons] at hsorted
    rw [List.forall_mem_cons] at hmark
    rw [List.takeWhile_cons, List.filter_cons]
    split
    . rw [ih hsorted.2 hmark.2]
    . next hentry =>
      rw [decide_eq_true_eq] at hentry
      symm
      rw [List.filter_eq_nil_iff]
      intro later hlater hpre
      rw [decide_eq_true_eq] at hpre
      exact hentry (prefix_of_between hmark.1 (hsorted.1 later hlater).2 hpre)

theorem scan_eq_filter (map : PathMap β) (mark : String) :
    map.scan mark = map.entries.filter (mark.toList <+: ·.1.text.toList) := by
  unfold scan
  obtain ⟨entries, hsorted⟩ := map
  induction entries with
  | nil => rfl
  | cons entry rest ih =>
    rw [List.dropWhile_cons]
    split
    . next hless =>
      rw [decide_eq_true_eq] at hless
      have hnot : ¬ mark.toList <+: entry.1.text.toList := fun hpre => hpre.le hless
      rw [ih (List.pairwise_cons.mp hsorted).2, List.filter_cons_of_neg]
      simpa using hnot
    . next hnotLess =>
      rw [decide_eq_true_eq] at hnotLess
      have hmark : mark ≤ entry.1.text := hnotLess
      apply takeWhile_eq_filter hsorted
      rw [List.forall_mem_cons]
      refine ⟨hmark, ?_⟩
      intro later hlater
      exact String.le_trans hmark ((List.pairwise_cons.mp hsorted).1 later hlater).2

theorem descendants_eq_below {map : PathMap β} (h : ∀ entry ∈ map.entries, entry.1.Canonical)
    {path : StorePath} (hpath : path.Canonical) : map.descendants path.text = map.below path := by
  unfold descendants below
  rw [scan_eq_filter, List.filter_filter]
  apply List.filter_congr
  intro entry hentry
  rw [Bool.eq_iff_iff, Bool.and_eq_true, decide_eq_true_eq, decide_eq_true_eq, decide_eq_true_eq,
    and_comm]
  exact descendantPrefix_prefix_iff hpath (h entry hentry)

theorem children_eq_filter_descendants {map : PathMap β}
    (h : ∀ entry ∈ map.entries, entry.1.Canonical) {path : StorePath} (hpath : path.Canonical) :
    map.children path = (map.descendants path.text).filter fun entry =>
    isChild path.text entry.1.text := by
  rw [descendants_eq_below h hpath]
  unfold children
  apply List.filter_congr
  rintro ⟨key, value⟩ hentry
  have hkey : key.Canonical := h _ (List.mem_of_mem_filter hentry)
  obtain ⟨names, rfl⟩ := ((mem_below_iff map path key value).mp hentry).1.1
  rw [Bool.eq_iff_iff, decide_eq_true_eq, isChild_text_iff hpath hkey, List.length_append,
    Nat.add_left_cancel_iff, List.length_eq_one_iff]
  simp

theorem canonical_of_mem_children {map : PathMap β} (h : ∀ entry ∈ map.entries, entry.1.Canonical)
    {path : StorePath} {entry : StorePath × β} (hentry : entry ∈ map.children path) :
    entry.1.Canonical := by
  unfold children below at hentry
  rw [List.mem_filter, List.mem_filter] at hentry
  exact h entry hentry.1.1

theorem flatMap_children_perm (map : PathMap β)
    (hclosed : ∀ key above, map.get? key ≠ none → Below above key → map.get? above ≠ none)
    (path : StorePath) :
    ((map.children path).flatMap fun child => child :: map.below child.1).Perm
      (map.below path) := by
  have hmem : ∀ child ∈ map.children path, ∀ key value,
      (key, value) ∈ child :: map.below child.1 ↔ child.1 <+: key ∧ map.get? key = some value := by
    rintro ⟨childKey, childValue⟩ hchild key value
    obtain ⟨name, rfl, hget⟩ := (mem_children_iff map path childKey childValue).mp hchild
    exact mem_cons_below_iff hget
  rw [List.perm_ext_iff_of_nodup]
  . rintro ⟨key, value⟩
    rw [List.mem_flatMap, mem_below_iff]
    constructor
    . rintro ⟨⟨childKey, childValue⟩, hchild, hkey⟩
      rw [hmem _ hchild] at hkey
      obtain ⟨name, rfl, _⟩ := (mem_children_iff map path childKey childValue).mp hchild
      have hbelow : Below path (path ++ [name]) := below_append (by simp)
      exact ⟨hbelow.trans hkey.1, hkey.2⟩
    . rintro ⟨hbelow, hget⟩
      obtain ⟨names, rfl⟩ := hbelow.1
      cases names with
      | nil => exact absurd (List.append_nil path).symm hbelow.2
      | cons name rest =>
        have hpre : path ++ [name] <+: path ++ name :: rest := ⟨rest, by simp⟩
        have hchild : map.get? (path ++ [name]) ≠ none := by
          rw [prefix_iff_eq_or_below] at hpre
          cases hpre with
          | inl heq =>
            rw [heq, hget]
            simp
          | inr hbelow => exact hclosed _ _ (by simp [hget]) hbelow
        obtain ⟨found, hfound⟩ := Option.ne_none_iff_exists'.mp hchild
        have hmemChild := (mem_children_iff map path (path ++ [name]) found).mpr ⟨name, rfl, hfound⟩
        refine ⟨_, hmemChild, ?_⟩
        rw [hmem _ hmemChild]
        exact ⟨hpre, hget⟩
  . rw [List.nodup_flatMap]
    constructor
    . rintro ⟨childKey, childValue⟩ _
      exact (nodup_cons_below map childKey childValue).of_map
    . have hchildren := List.Pairwise.and_mem.mp (map.children_pairwise path)
      refine hchildren.imp ?_
      rintro ⟨firstKey, firstValue⟩ ⟨secondKey, secondValue⟩ ⟨hfirst, hsecond, hprecedes⟩
        ⟨key, value⟩ hin hin'
      rw [hmem _ hfirst] at hin
      rw [hmem _ hsecond] at hin'
      obtain ⟨name, rfl, _⟩ := (mem_children_iff map path firstKey firstValue).mp hfirst
      obtain ⟨other, rfl, _⟩ := (mem_children_iff map path secondKey secondValue).mp hsecond
      -- Two children with a common key below them have the same length, and so the same path.
      have heq : path ++ [name] = path ++ [other] := by
        apply (List.prefix_of_prefix_length_le hin.1 hin'.1 _).eq_of_length
        all_goals simp
      exact hprecedes.1 heq
  . exact nodup_of_pairwise (map.below_pairwise path)

theorem children_congr {map other : PathMap β} {path : StorePath}
    (hcanonical : ∀ key value, map.get? key = some value → key.Canonical)
    (hget : ∀ name, other.get? (path ++ [name]) = map.get? (path ++ [name])) :
    other.children path = map.children path := by
  have hmem : ∀ entry, entry ∈ other.children path ↔ entry ∈ map.children path := by
    rintro ⟨key, value⟩
    rw [mem_children_iff, mem_children_iff]
    constructor
    . rintro ⟨name, rfl, hvalue⟩
      exact ⟨name, rfl, hget name ▸ hvalue⟩
    . rintro ⟨name, rfl, hvalue⟩
      exact ⟨name, rfl, (hget name).symm ▸ hvalue⟩
  have hkey : ∀ entry ∈ map.children path, entry.1.Canonical ∧ map.get? entry.1 = some entry.2 := by
    rintro ⟨key, value⟩ hentry
    rw [mem_children_iff] at hentry
    obtain ⟨name, rfl, hvalue⟩ := hentry
    exact ⟨hcanonical _ _ hvalue, hvalue⟩
  have hsorted := map.children_pairwise path
  have hsorted' := other.children_pairwise path
  refine List.Perm.eq_of_pairwise ?_ hsorted' hsorted ?_
  . intro a b ha hb hab hba
    rw [hmem] at ha
    have htext := String.le_antisymm hab.2 hba.2
    exact absurd (eq_of_text_eq (hkey a ha).1 (hkey b hb).1 htext) hab.1
  . rw [List.perm_ext_iff_of_nodup (nodup_of_pairwise hsorted') (nodup_of_pairwise hsorted)]
    exact hmem

end PathMap

end LakeStore
