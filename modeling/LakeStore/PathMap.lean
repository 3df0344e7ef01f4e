import LakeStore.Path.Basic

/-!
Finite maps from paths, in the byte order of the text of their keys. A map carries the proof that it
is sorted and has no key twice. Main statements: `get?` after `insert`, `erase` and `eraseFrom`, and
`get?` as membership among the entries.
-/

namespace LakeStore

def PathMap.Precedes {β : Type} (a b : StorePath × β) : Prop :=
  a.1 ≠ b.1 ∧ a.1.text ≤ b.1.text

/-- A finite map from paths to values. The entries are sorted by the text of their paths. -/
structure PathMap (β : Type) where
  entries : List (StorePath × β)
  sorted : entries.Pairwise PathMap.Precedes
deriving DecidableEq, Repr

namespace PathMap

variable {β : Type}

instance : EmptyCollection (PathMap β) where
  emptyCollection := ⟨[], .nil⟩

instance : Inhabited (PathMap β) := ⟨∅⟩

def get? (map : PathMap β) (path : StorePath) : Option β :=
  map.entries.lookup path

def contains (map : PathMap β) (path : StorePath) : Bool :=
  (map.get? path).isSome

def insertAmong (path : StorePath) (value : β) : List (StorePath × β) → List (StorePath × β)
  | [] => [(path, value)]
  | (key, old) :: rest =>
    if path = key then
      (path, value) :: rest
    else if path.text < key.text then
      (path, value) :: (key, old) :: rest
    else
      (key, old) :: insertAmong path value rest

theorem eq_or_mem_of_mem_insertAmong {path : StorePath} {value : β} {entry : StorePath × β}
    {entries : List (StorePath × β)} (h : entry ∈ insertAmong path value entries) :
    entry = (path, value) ∨ entry ∈ entries := by
  fun_induction insertAmong path value entries with
  | case1 => simpa using h
  | case2 =>
    rw [List.mem_cons] at h ⊢
    cases h with
    | inl h => exact .inl h
    | inr h => exact .inr (.inr h)
  | case3 => simpa using h
  | case4 key old rest _ _ ih =>
    rw [List.mem_cons] at h ⊢
    cases h with
    | inl h => exact .inr (.inl h)
    | inr h =>
      cases ih h with
      | inl h => exact .inl h
      | inr h => exact .inr (.inr h)

theorem insertAmong_sorted (path : StorePath) (value : β) {entries : List (StorePath × β)}
    (h : entries.Pairwise Precedes) : (insertAmong path value entries).Pairwise Precedes := by
  fun_induction insertAmong path value entries with
  | case1 => exact List.pairwise_singleton _ _
  | case2 rest old =>
    rw [List.pairwise_cons] at h ⊢
    exact h
  | case3 key old rest hne hlt =>
    rw [List.pairwise_cons]
    refine ⟨?_, h⟩
    intro entry hentry
    have hle : path.text ≤ key.text := (String.le_total _ _).resolve_right fun hle => hle hlt
    rw [List.mem_cons] at hentry
    cases hentry with
    | inl heq => subst heq; exact ⟨hne, hle⟩
    | inr hmem =>
      have hkey := (List.pairwise_cons.mp h).1 entry hmem
      refine ⟨?_, String.le_trans hle hkey.2⟩
      intro heq
      simp only at heq
      rw [heq] at hlt
      exact hkey.2 hlt
  | case4 key old rest hne hlt ih =>
    rw [List.pairwise_cons] at h ⊢
    refine ⟨?_, ih h.2⟩
    intro entry hentry
    cases eq_or_mem_of_mem_insertAmong hentry with
    | inl heq => subst heq; exact ⟨Ne.symm hne, String.not_lt.mp hlt⟩
    | inr hmem => exact h.1 entry hmem

def insert (map : PathMap β) (path : StorePath) (value : β) : PathMap β :=
  ⟨insertAmong path value map.entries, insertAmong_sorted path value map.sorted⟩

def insertIfNew (map : PathMap β) (path : StorePath) (value : β) : PathMap β :=
  if map.contains path then map else map.insert path value

def filter (map : PathMap β) (keep : StorePath → Bool) : PathMap β :=
  ⟨map.entries.filter fun entry => keep entry.1, map.sorted.filter _⟩

def erase (map : PathMap β) (path : StorePath) : PathMap β :=
  map.filter (· ≠ path)

def eraseFrom (map : PathMap β) (path : StorePath) : PathMap β :=
  map.filter (¬ path <+: ·)

def below (map : PathMap β) (path : StorePath) : List (StorePath × β) :=
  map.entries.filter fun entry => StorePath.Below path entry.1

def children (map : PathMap β) (path : StorePath) : List (StorePath × β) :=
  (map.below path).filter fun entry => entry.1.length = path.length + 1

@[simp]
theorem get?_empty (path : StorePath) : (∅ : PathMap β).get? path = none := rfl

theorem lookup_cons_eq_ite (path key : StorePath) (value : β) (rest : List (StorePath × β)) :
    List.lookup path ((key, value) :: rest) =
      if path = key then some value else List.lookup path rest := by
  by_cases h : path = key
  · simp [h]
  · simp [List.lookup_cons, h, beq_false_of_ne h]

theorem get?_insert (map : PathMap β) (path other : StorePath) (value : β) :
    (map.insert path value).get? other = if other = path then some value else map.get? other := by
  simp only [get?, insert]
  induction map.entries with
  | nil => simp [insertAmong, lookup_cons_eq_ite]
  | cons entry rest ih =>
    obtain ⟨key, old⟩ := entry
    simp only [insertAmong]
    split
    · next h =>
      subst h
      by_cases h : other = path <;> simp [lookup_cons_eq_ite, h]
    · split
      · by_cases h : other = path <;> simp [lookup_cons_eq_ite, h]
      · next hne _ =>
        by_cases h : other = key
        · subst h
          simp [Ne.symm hne]
        · simp [lookup_cons_eq_ite, h, ih]

@[simp]
theorem get?_insert_self (map : PathMap β) (path : StorePath) (value : β) :
    (map.insert path value).get? path = some value := by
  simp [get?_insert]

theorem get?_filter (map : PathMap β) (keep : StorePath → Bool) (path : StorePath) :
    (map.filter keep).get? path = if keep path then map.get? path else none := by
  simp only [get?, filter]
  induction map.entries with
  | nil => simp
  | cons entry rest ih =>
    obtain ⟨key, value⟩ := entry
    by_cases hkey : path = key
    · subst hkey
      by_cases hkeep : keep path
      · simp [hkeep]
      · simpa [List.filter_cons, hkeep] using ih
    · by_cases hkeep : keep key <;> simp [lookup_cons_eq_ite, hkeep, hkey, ih]

theorem get?_erase (map : PathMap β) (path other : StorePath) :
    (map.erase path).get? other = if other = path then none else map.get? other := by
  by_cases h : other = path <;> simp [erase, get?_filter, h]

theorem get?_eraseFrom (map : PathMap β) (path other : StorePath) :
    (map.eraseFrom path).get? other = if path <+: other then none else map.get? other := by
  by_cases h : path <+: other <;> simp [eraseFrom, get?_filter, h]

theorem filter_congr {map : PathMap β} {keep other : StorePath → Bool}
    (h : ∀ entry ∈ map.entries, keep entry.1 = other entry.1) :
    map.filter keep = map.filter other := by
  unfold filter
  congr 1
  exact List.filter_congr h

theorem filter_filter (map : PathMap β) (keep other : StorePath → Bool) :
    (map.filter keep).filter other = map.filter fun path => other path && keep path := by
  unfold filter
  congr 1
  rw [List.filter_filter]

theorem erase_filter_below (map : PathMap β) (path : StorePath) :
    (map.filter (¬ StorePath.Below path ·)).erase path = map.eraseFrom path := by
  unfold erase eraseFrom
  rw [filter_filter]
  apply filter_congr
  intro entry _
  rw [Bool.eq_iff_iff]
  simp only [StorePath.Below, Bool.and_eq_true, decide_eq_true_eq, not_and, ne_eq,
    Decidable.not_not]
  constructor
  . rintro ⟨hne, hbelow⟩ hpre
    exact hne (hbelow hpre).symm
  . intro hpre
    refine ⟨?_, fun h => absurd h hpre⟩
    rintro rfl
    exact hpre List.prefix_rfl

theorem contains_iff (map : PathMap β) (path : StorePath) :
    map.contains path ↔ ∃ value, map.get? path = some value := by
  rw [contains, Option.isSome_iff_exists]

theorem get?_insertIfNew (map : PathMap β) (path other : StorePath) (value : β) :
    (map.insertIfNew path value).get? other =
      if other = path then some ((map.get? path).getD value) else map.get? other := by
  unfold insertIfNew contains
  cases hpath : map.get? path with
  | none => simp [get?_insert]
  | some old =>
    by_cases h : other = path
    . simp [h, hpath]
    . simp [h]

theorem mem_entries_iff (map : PathMap β) (path : StorePath) (value : β) :
    (path, value) ∈ map.entries ↔ map.get? path = some value := by
  obtain ⟨entries, hsorted⟩ := map
  simp only [get?]
  induction entries with
  | nil => simp
  | cons entry rest ih =>
    obtain ⟨key, old⟩ := entry
    rw [List.pairwise_cons] at hsorted
    specialize ih hsorted.2
    rw [List.mem_cons, lookup_cons_eq_ite, ih, Prod.mk.injEq]
    split
    . next h =>
      subst h
      -- The key stands in front of the rest, so that it is not among the keys of the rest.
      have hnot : ¬ List.lookup path rest = some value := by
        intro hlookup
        exact (hsorted.1 _ (ih.mpr hlookup)).1 rfl
      simp [hnot, eq_comm]
    . next h => simp [h]

theorem mem_below_iff (map : PathMap β) (path key : StorePath) (value : β) :
    (key, value) ∈ map.below path ↔ StorePath.Below path key ∧ map.get? key = some value := by
  simp only [below, List.mem_filter, decide_eq_true_eq]
  rw [mem_entries_iff, and_comm]

theorem mem_children_iff (map : PathMap β) (path key : StorePath) (value : β) :
    (key, value) ∈ map.children path ↔
      ∃ name, key = path ++ [name] ∧ map.get? key = some value := by
  simp only [children, List.mem_filter, decide_eq_true_eq]
  rw [mem_below_iff]
  constructor
  . rintro ⟨⟨⟨hpre, _⟩, hget⟩, hlength⟩
    obtain ⟨names, rfl⟩ := hpre
    rw [List.length_append] at hlength
    obtain ⟨name, rfl⟩ := List.length_eq_one_iff.mp (by omega : names.length = 1)
    exact ⟨name, rfl, hget⟩
  . rintro ⟨name, rfl, hget⟩
    refine ⟨⟨⟨List.prefix_append _ _, ?_⟩, hget⟩, by simp⟩
    intro h
    simpa using congrArg List.length h

end PathMap

end LakeStore
