import LakeStore.Proofs.Trees
import Mathlib.Data.List.Basic

/-!
What a transfer does to the contents of the place that it goes to, whoever makes it. The entries are
put at their places one by one, and one that something is in the way of is left out. What holds an
entry back was there before the transfer, as no entry of a tree is in the way of another one.
-/

namespace LakeStore

open StorePath

abbrev Cargo := StorePath × Option ByteArray

structure Cargo.Clear (cargo other : Cargo) : Prop where
  ne : cargo.1 ≠ other.1
  left : cargo.2.isSome → ¬ cargo.1 <+: other.1
  right : other.2.isSome → ¬ other.1 <+: cargo.1

namespace Contents

variable {contents tree : Contents} {place : StorePath} {cargo other : Cargo} {cargoes : List Cargo}

def Admits (contents : Contents) (place : StorePath) : Cargo → Prop
  | (path, none) => contents.CanPutDirectory (place ++ path)
  | (path, some _) => contents.CanPut (place ++ path)

def lay (contents : Contents) (place : StorePath) : Cargo → Contents
  | (path, none) => contents.putDirectory (place ++ path)
  | (path, some data) => contents.put (place ++ path) data

theorem lay_elsewhere {key : StorePath} (h : ¬ key <+: place ++ cargo.1) :
    contents.lay place cargo key = contents key := by
  obtain ⟨path, data?⟩ := cargo
  cases data? with
  | none => exact if_neg h
  | some data =>
    have hne : key ≠ place ++ path := fun heq => h (heq ▸ List.prefix_rfl)
    have hbelow : ¬ Below key (place ++ path) := fun hbelow => h hbelow.1
    exact (if_neg hne).trans (if_neg hbelow)

theorem lay_above {key : StorePath} (hpre : key <+: place ++ cargo.1)
    (hne : cargo.2.isSome → key ≠ place ++ cargo.1) :
    contents.lay place cargo key = some .directory := by
  obtain ⟨path, data?⟩ := cargo
  cases data? with
  | none => exact if_pos hpre
  | some data => exact (if_neg (hne rfl)).trans (if_pos ⟨hpre, hne rfl⟩)

theorem Admits.not_file (h : contents.Admits place cargo) {key : StorePath}
    (hpre : key <+: place ++ cargo.1) (hne : cargo.2.isSome → key ≠ place ++ cargo.1)
    (data : ByteArray) : contents key ≠ some (.file data) := by
  intro hfile
  rw [prefix_iff_eq_or_below] at hpre
  obtain ⟨path, data?⟩ := cargo
  cases data? with
  | none =>
    cases hpre with
    | inl heq => exact h.1 data (heq ▸ hfile)
    | inr hbelow => exact h.2 ⟨key, data, hbelow, hfile⟩
  | some _ =>
    cases hpre with
    | inl heq => exact hne rfl heq
    | inr hbelow => exact h.2 ⟨key, data, hbelow, hfile⟩

theorem lay_eq_file_iff (h : contents.Admits place cargo) {key : StorePath}
    (hne : cargo.2.isSome → key ≠ place ++ cargo.1) (data : ByteArray) :
    contents.lay place cargo key = some (.file data) ↔ contents key = some (.file data) := by
  by_cases hpre : key <+: place ++ cargo.1
  . have hnot := h.not_file hpre hne data
    rw [lay_above hpre hne]
    simp [hnot]
  . rw [lay_elsewhere hpre]

theorem fileAbove_lay_iff (h : contents.Admits place cargo) (hclear : cargo.Clear other) :
    (contents.lay place cargo).FileAbove (place ++ other.1) ↔
      contents.FileAbove (place ++ other.1) := by
  have hne : ∀ above, Below above (place ++ other.1) → cargo.2.isSome →
      above ≠ place ++ cargo.1 := by
    rintro above habove hfile rfl
    exact hclear.left hfile (below_append_iff.mp habove).1
  constructor
  . rintro ⟨above, data, habove, hfile⟩
    exact ⟨above, data, habove, (lay_eq_file_iff h (hne above habove) data).mp hfile⟩
  . rintro ⟨above, data, habove, hfile⟩
    exact ⟨above, data, habove, (lay_eq_file_iff h (hne above habove) data).mpr hfile⟩

theorem admits_lay_iff (h : contents.Admits place cargo) (hclear : cargo.Clear other) :
    (contents.lay place cargo).Admits place other ↔ contents.Admits place other := by
  have habove := fileAbove_lay_iff h hclear
  have hne : place ++ other.1 ≠ place ++ cargo.1 := by
    rw [ne_eq, List.append_cancel_left_eq]
    exact hclear.ne.symm
  obtain ⟨path, data?⟩ := other
  cases data? with
  | none =>
    unfold Admits CanPutDirectory
    dsimp only at habove hne ⊢
    rw [habove]
    simp only [ne_eq, lay_eq_file_iff h fun _ => hne]
  | some data =>
    have hnot : ¬ place ++ path <+: place ++ cargo.1 := by
      rw [List.prefix_append_right_inj]
      exact hclear.right rfl
    unfold Admits CanPut
    dsimp only at habove hne ⊢
    rw [habove, lay_elsewhere hnot]

end Contents

structure Delivery where
  contents : Contents
  transferred : Nat
  failed : List StorePath

open Classical in
noncomputable def Delivery.next (place : StorePath) (delivery : Delivery) (cargo : Cargo) :
    Delivery :=
  if delivery.contents.Admits place cargo then
    ⟨delivery.contents.lay place cargo, delivery.transferred + (if cargo.2.isSome then 1 else 0),
      delivery.failed⟩
  else
    ⟨delivery.contents, delivery.transferred, delivery.failed ++ [cargo.1]⟩

/-- Brings entries to their places, one after the other. -/
noncomputable def Contents.deliver (contents : Contents) (place : StorePath)
    (cargoes : List Cargo) : Delivery :=
  cargoes.foldl (Delivery.next place) ⟨contents, 0, []⟩

namespace Contents

variable {contents tree : Contents} {place : StorePath} {cargo : Cargo} {cargoes : List Cargo}

theorem next_of_admits {delivery : Delivery} (h : delivery.contents.Admits place cargo) :
    delivery.next place cargo = ⟨delivery.contents.lay place cargo,
      delivery.transferred + (if cargo.2.isSome then 1 else 0), delivery.failed⟩ :=
  if_pos h

theorem next_of_not_admits {delivery : Delivery} (h : ¬ delivery.contents.Admits place cargo) :
    delivery.next place cargo = ⟨delivery.contents, delivery.transferred,
      delivery.failed ++ [cargo.1]⟩ :=
  if_neg h

theorem deliver_concat (contents : Contents) (place : StorePath) (cargoes : List Cargo)
    (cargo : Cargo) :
    contents.deliver place (cargoes ++ [cargo]) =
      (contents.deliver place cargoes).next place cargo := by
  unfold deliver
  rw [List.foldl_concat]

theorem deliver_elsewhere {key : StorePath} (h : ∀ cargo ∈ cargoes, ¬ key <+: place ++ cargo.1) :
    (contents.deliver place cargoes).contents key = contents key := by
  induction cargoes using List.reverseRecOn with
  | nil => rfl
  | append_singleton cargoes cargo ih =>
    have hold := ih fun other hother => h other (by simp [hother])
    rw [deliver_concat]
    by_cases hadmits : (contents.deliver place cargoes).contents.Admits place cargo
    . rw [next_of_admits hadmits]
      exact (lay_elsewhere (h cargo (by simp))).trans hold
    . rw [next_of_not_admits hadmits]
      exact hold

theorem exists_of_mem_failed {path : StorePath}
    (h : path ∈ (contents.deliver place cargoes).failed) :
    ∃ cargo ∈ cargoes, cargo.1 = path := by
  induction cargoes using List.reverseRecOn with
  | nil => cases h
  | append_singleton cargoes cargo ih =>
    rw [deliver_concat] at h
    have hfailed : path ∈ (contents.deliver place cargoes).failed ∨ path = cargo.1 := by
      by_cases hadmits : (contents.deliver place cargoes).contents.Admits place cargo
      . rw [next_of_admits hadmits] at h
        exact .inl h
      . rw [next_of_not_admits hadmits] at h
        simpa using h
    rcases hfailed with hmem | rfl
    . obtain ⟨other, hother, heq⟩ := ih hmem
      exact ⟨other, List.mem_append_left _ hother, heq⟩
    . exact ⟨cargo, by simp, rfl⟩

open Classical in
theorem deliver_eq (hclear : cargoes.Pairwise Cargo.Clear) :
    contents.deliver place cargoes =
      ⟨(cargoes.filter (contents.Admits place ·)).foldl (lay · place) contents,
        cargoes.countP fun cargo => cargo.2.isSome && decide (contents.Admits place cargo),
        (cargoes.filter (¬ contents.Admits place ·)).map Prod.fst⟩ := by
  have hfold : ∀ count failed, cargoes.foldl (Delivery.next place) ⟨contents, count, failed⟩ =
      ⟨(cargoes.filter (contents.Admits place ·)).foldl (lay · place) contents,
        count + cargoes.countP fun cargo => cargo.2.isSome && decide (contents.Admits place cargo),
        failed ++ (cargoes.filter (¬ contents.Admits place ·)).map Prod.fst⟩ := by
    induction cargoes generalizing contents with
    | nil => simp
    | cons cargo cargoes ih =>
      intro count failed
      obtain ⟨hfirst, hrest⟩ := List.pairwise_cons.mp hclear
      rw [List.foldl_cons]
      by_cases hadmits : contents.Admits place cargo
      . have hsame : ∀ other ∈ cargoes, (contents.lay place cargo).Admits place other ↔
            contents.Admits place other :=
          fun other hother => admits_lay_iff hadmits (hfirst other hother)
        have hkept : cargoes.filter ((contents.lay place cargo).Admits place ·) =
            cargoes.filter (contents.Admits place ·) := by
          apply List.filter_congr
          intro other hother
          rw [hsame other hother]
        have hleft : cargoes.filter (¬ (contents.lay place cargo).Admits place ·) =
            cargoes.filter (¬ contents.Admits place ·) := by
          apply List.filter_congr
          intro other hother
          rw [hsame other hother]
        have hcount : (cargoes.countP fun other =>
          other.2.isSome && decide ((contents.lay place cargo).Admits place other)) =
            cargoes.countP fun other => other.2.isSome && decide (contents.Admits place other) := by
          apply List.countP_congr
          intro other hother
          simp [hsame other hother]
        rw [next_of_admits hadmits, ih hrest, hkept, hleft, hcount]
        simp only [List.filter_cons, hadmits, List.countP_cons]
        cases cargo.2.isSome <;> simp [Nat.add_assoc, Nat.add_comm 1]
      . rw [next_of_not_admits hadmits, ih hrest]
        simp [hadmits]
  unfold deliver
  rw [hfold, Nat.zero_add, List.nil_append]

section under

variable {location root : StorePath}

theorem lay_under (contents : Contents) (location root : StorePath) (cargo : Cargo) :
    (contents.lay (location ++ root) cargo).under location =
      (contents.under location).lay root cargo := by
  obtain ⟨path, data?⟩ := cargo
  unfold lay
  cases data? with
  | none =>
    dsimp only
    rw [List.append_assoc]
    exact putDirectory_under contents location (root ++ path)
  | some data =>
    dsimp only
    rw [List.append_assoc]
    exact put_under contents location (root ++ path) data

theorem admits_under_iff (h : ∀ above, above <+: location → contents above = some .directory)
    (cargo : Cargo) :
    contents.Admits (location ++ root) cargo ↔ (contents.under location).Admits root cargo := by
  obtain ⟨path, data?⟩ := cargo
  unfold Admits
  cases data? with
  | none =>
    dsimp only
    rw [List.append_assoc]
    exact canPutDirectory_under_iff h
  | some data =>
    dsimp only
    rw [List.append_assoc]
    exact canPut_under_iff h

theorem lay_of_directory {key : StorePath} (h : contents.Admits place cargo)
    (hkey : contents key = some .directory) : contents.lay place cargo key = some .directory := by
  by_cases hpre : key <+: place ++ cargo.1
  . apply lay_above hpre
    rintro hsome rfl
    obtain ⟨path, data?⟩ := cargo
    cases data? with
    | none => cases hsome
    | some data => exact h.1 hkey
  . rw [lay_elsewhere hpre]
    exact hkey

theorem deliver_of_directory {key : StorePath} (hkey : contents key = some .directory)
    (cargoes : List Cargo) :
    (contents.deliver place cargoes).contents key = some .directory := by
  induction cargoes using List.reverseRecOn with
  | nil => exact hkey
  | append_singleton cargoes cargo ih =>
    rw [deliver_concat]
    by_cases hadmits : (contents.deliver place cargoes).contents.Admits place cargo
    . rw [next_of_admits hadmits]
      exact lay_of_directory hadmits ih
    . rw [next_of_not_admits hadmits]
      exact ih

theorem deliver_under (h : ∀ above, above <+: location → contents above = some .directory)
    (root : StorePath) (cargoes : List Cargo) :
    (contents.under location).deliver root cargoes =
      ⟨(contents.deliver (location ++ root) cargoes).contents.under location,
        (contents.deliver (location ++ root) cargoes).transferred,
        (contents.deliver (location ++ root) cargoes).failed⟩ := by
  induction cargoes using List.reverseRecOn with
  | nil => rfl
  | append_singleton cargoes cargo ih =>
    have habove : ∀ above, above <+: location →
        (contents.deliver (location ++ root) cargoes).contents above = some .directory :=
      fun above hpre => deliver_of_directory (h above hpre) cargoes
    rw [deliver_concat, deliver_concat, ih]
    by_cases hadmits : (contents.deliver (location ++ root) cargoes).contents.Admits
      (location ++ root) cargo
    . rw [next_of_admits hadmits, next_of_admits ((admits_under_iff habove cargo).mp hadmits)]
      dsimp only
      rw [lay_under]
    . rw [next_of_not_admits hadmits]
      exact next_of_not_admits fun hunder => hadmits ((admits_under_iff habove cargo).mpr hunder)

end under

structure Laid (place : StorePath) (before : Contents) (cargoes : List Cargo) (after : Contents) :
    Prop where
  file : ∀ path data, (path, some data) ∈ cargoes → after (place ++ path) = some (.file data)
  made : ∀ key, (∃ cargo ∈ cargoes, key <+: place ++ cargo.1) →
    (∀ path data, (path, some data) ∈ cargoes → key ≠ place ++ path) → after key = some .directory
  kept : ∀ key, (∀ cargo ∈ cargoes, ¬ key <+: place ++ cargo.1) → after key = before key

theorem laid_foldl (contents : Contents) (place : StorePath)
    (hclear : cargoes.Pairwise Cargo.Clear) :
    Laid place contents cargoes (cargoes.foldl (lay · place) contents) := by
  induction cargoes generalizing contents with
  | nil => exact ⟨by simp, by simp, fun _ _ => rfl⟩
  | cons cargo cargoes ih =>
    obtain ⟨hfirst, hrest⟩ := List.pairwise_cons.mp hclear
    have hlaid := ih (contents.lay place cargo) hrest
    rw [List.foldl_cons]
    constructor
    . intro path data hmem
      rw [List.mem_cons] at hmem
      cases hmem with
      | inr hmem => exact hlaid.file path data hmem
      | inl heq =>
        subst heq
        rw [hlaid.kept]
        . exact if_pos rfl
        . intro other hother
          rw [List.prefix_append_right_inj]
          exact (hfirst other hother).left rfl
    . intro key hkey hfile
      by_cases hlater : ∃ other ∈ cargoes, key <+: place ++ other.1
      . exact hlaid.made key hlater fun path data hmem => hfile path data (.tail _ hmem)
      . rw [hlaid.kept key fun other hother hpre => hlater ⟨other, hother, hpre⟩]
        obtain ⟨other, hother, hpre⟩ := hkey
        rw [List.mem_cons] at hother
        cases hother with
        | inr hother => exact absurd ⟨other, hother, hpre⟩ hlater
        | inl heq =>
          subst heq
          apply lay_above hpre
          intro hsome
          obtain ⟨data, hdata⟩ := Option.isSome_iff_exists.mp hsome
          apply hfile _ data
          rw [← hdata]
          exact .head _
    . intro key hkey
      rw [hlaid.kept key fun other hother => hkey other (.tail _ hother)]
      exact lay_elsewhere (hkey cargo (.head _))

theorem directory_of_not_admits (hcontents : contents.IsTree)
    (hput : contents.CanPutDirectory place) (h : ¬ contents.Admits place cargo) :
    contents place = some .directory := by
  have hfile : ∀ key data, key <+: place ++ cargo.1 → contents key = some (.file data) →
      contents place = some .directory := by
    intro key data hpre hfile
    rcases prefix_or_prefix_of_append hpre with habove | hbelow
    . rcases prefix_iff_eq_or_below.mp habove with rfl | habove
      . exact absurd hfile (hput.1 data)
      . exact absurd ⟨key, data, habove, hfile⟩ hput.2
    . rcases prefix_iff_eq_or_below.mp hbelow with rfl | hbelow
      . exact absurd hfile (hput.1 data)
      . exact hcontents.closed key place (by simp [hfile]) hbelow
  obtain ⟨path, data?⟩ := cargo
  by_contra hdirectory
  apply h
  have habove : ¬ contents.FileAbove (place ++ path) := by
    rintro ⟨above, data, hbelow, hfound⟩
    exact hdirectory (hfile above data hbelow.1 hfound)
  cases data? with
  | none => exact ⟨fun data hfound => hdirectory (hfile _ data List.prefix_rfl hfound), habove⟩
  | some data =>
    refine ⟨fun hfound => hdirectory ?_, habove⟩
    rcases prefix_iff_eq_or_below.mp (List.prefix_append place path) with heq | hbelow
    . rw [heq]
      exact hfound
    . exact hcontents.closed _ place (by simp [hfound]) hbelow

theorem foldl_lay_root (hcontents : contents.IsTree) (hclear : cargoes.Pairwise Cargo.Clear)
    (hempty : cargoes = [] → contents place = some .directory) :
    cargoes.foldl (lay · place) (contents.lay place ([], none)) =
      cargoes.foldl (lay · place) contents := by
  have hwith := laid_foldl (contents.lay place ([], none)) place hclear
  have hwithout := laid_foldl contents place hclear
  funext key
  by_cases hkey : ∃ cargo ∈ cargoes, key <+: place ++ cargo.1
  . by_cases hfile : ∃ path data, (path, some data) ∈ cargoes ∧ key = place ++ path
    . obtain ⟨path, data, hmem, rfl⟩ := hfile
      rw [hwith.file path data hmem, hwithout.file path data hmem]
    . have hnot : ∀ path data, (path, some data) ∈ cargoes → key ≠ place ++ path :=
        fun path data hmem heq => hfile ⟨path, data, hmem, heq⟩
      rw [hwith.made key hkey hnot, hwithout.made key hkey hnot]
  . have hnot : ∀ cargo ∈ cargoes, ¬ key <+: place ++ cargo.1 :=
      fun cargo hcargo hpre => hkey ⟨cargo, hcargo, hpre⟩
    rw [hwith.kept key hnot, hwithout.kept key hnot]
    by_cases hpre : key <+: place
    . have hnil : cargoes = [] := by
        cases cargoes with
        | nil => rfl
        | cons cargo rest =>
          exact absurd (hpre.trans (List.prefix_append _ _)) (hnot cargo (.head _))
      change contents.putDirectory (place ++ []) key = contents key
      rw [List.append_nil, hcontents.putDirectory_eq_self (hempty hnil)]
    . apply lay_elsewhere
      rw [List.append_nil]
      exact hpre

theorem deliver_root (hcontents : contents.IsTree) (hput : contents.CanPutDirectory place)
    (hclear : (([], none) :: cargoes).Pairwise Cargo.Clear)
    (hmore : cargoes ≠ [] ∨ contents place = some .directory) :
    contents.deliver place (([], none) :: cargoes) = contents.deliver place cargoes := by
  classical
  have hrest := (List.pairwise_cons.mp hclear).2
  have hroot : contents.Admits place ([], none) := by
    change contents.CanPutDirectory (place ++ [])
    rw [List.append_nil]
    exact hput
  have hempty : cargoes.filter (contents.Admits place ·) = [] →
      contents place = some .directory := by
    intro hnil
    rcases hmore with hne | hdirectory
    . obtain ⟨cargo, rest, rfl⟩ := List.exists_cons_of_ne_nil hne
      have hnot := List.filter_eq_nil_iff.mp hnil cargo (.head _)
      rw [decide_eq_true_eq] at hnot
      exact directory_of_not_admits hcontents hput hnot
    . exact hdirectory
  rw [deliver_eq hclear, deliver_eq hrest]
  simp only [List.filter_cons, hroot, decide_true, if_true, not_true_eq_false, decide_false,
    Bool.false_eq_true, if_false, List.foldl_cons]
  rw [foldl_lay_root hcontents (hrest.sublist List.filter_sublist) hempty]
  simp

structure Lists (tree : Contents) (cargoes : List Cargo) : Prop where
  nodup : (cargoes.map Prod.fst).Nodup
  directory : ∀ path, (path, none) ∈ cargoes ↔ tree path = some .directory
  file : ∀ path data, (path, some data) ∈ cargoes ↔ tree path = some (.file data)

theorem Lists.ne_none (h : tree.Lists cargoes) (hcargo : cargo ∈ cargoes) :
    tree cargo.1 ≠ none := by
  obtain ⟨path, data?⟩ := cargo
  cases data? with
  | none => simp [(h.directory path).mp hcargo]
  | some data => simp [(h.file path data).mp hcargo]

theorem Lists.withoutLinks (h : tree.Lists cargoes) : tree.withoutLinks.Lists cargoes := by
  refine ⟨h.nodup, ?_, ?_⟩
  . intro path
    rw [h.directory, withoutLinks_eq_directory_iff]
  . intro path data
    rw [h.file, withoutLinks_eq_file_iff]

theorem Lists.fileCount_eq (h : tree.Lists cargoes) : tree.fileCount = cargoes.countP fun cargo =>
      cargo.2.isSome := by
  apply fileCount_eq_countP Prod.fst h.nodup
  intro path
  constructor
  . rintro ⟨⟨path, data?⟩, hmem, hsome, rfl⟩
    obtain ⟨data, rfl⟩ := Option.isSome_iff_exists.mp hsome
    exact ⟨data, (h.file path data).mp hmem⟩
  . rintro ⟨data, hfile⟩
    exact ⟨_, (h.file path data).mpr hfile, rfl, rfl⟩

theorem Lists.pairwise_clear (h : tree.Lists cargoes) (htree : tree.IsTree) :
    cargoes.Pairwise Cargo.Clear := by
  have hnot : ∀ cargo ∈ cargoes, ∀ other ∈ cargoes,
      cargo.1 ≠ other.1 → cargo.2.isSome → ¬ cargo.1 <+: other.1 := by
    intro cargo hcargo other hother hne hsome hpre
    obtain ⟨data, hdata⟩ := Option.isSome_iff_exists.mp hsome
    have hmem : (cargo.1, some data) ∈ cargoes := by
      rw [← hdata]
      exact hcargo
    have hclosed := htree.closed other.1 cargo.1 (h.ne_none hother) ⟨hpre, hne⟩
    rw [(h.file cargo.1 data).mp hmem] at hclosed
    cases hclosed
  have hnodup := h.nodup
  rw [List.Nodup, List.pairwise_map] at hnodup
  refine hnodup.imp_of_mem ?_
  intro cargo other hcargo hother hne
  exact ⟨hne, hnot cargo hcargo other hother hne, hnot other hother cargo hcargo hne.symm⟩

theorem Lists.exists_of_ne_none (h : tree.Lists cargoes)
    (hlink : ∀ path target, tree path ≠ some (.link target)) (hpath : tree path ≠ none) :
    ∃ data?, (path, data?) ∈ cargoes := by
  cases hcontent : tree path with
  | none => exact absurd hcontent hpath
  | some content =>
    cases content with
    | directory => exact ⟨none, (h.directory path).mpr hcontent⟩
    | file data => exact ⟨some data, (h.file path data).mpr hcontent⟩
    | link target => exact absurd hcontent (hlink path target)

theorem Laid.arrived {after : Contents} {path : StorePath} (h : Laid place contents cargoes after)
    (hlists : tree.Lists cargoes) (hlink : ∀ path target, tree path ≠ some (.link target))
    (hpath : tree path ≠ none) :
    after (place ++ path) = tree path := by
  obtain ⟨data?, hmem⟩ := hlists.exists_of_ne_none hlink hpath
  cases data? with
  | some data =>
    rw [(hlists.file path data).mp hmem]
    exact h.file path data hmem
  | none =>
    rw [(hlists.directory path).mp hmem]
    apply h.made _ ⟨_, hmem, List.prefix_rfl⟩
    rintro other data hother heq
    obtain rfl := List.append_cancel_left heq
    have hfile := (hlists.file path data).mp hother
    rw [(hlists.directory path).mp hmem] at hfile
    cases hfile

theorem Takes.admits (h : contents.Takes place tree) (hcontents : contents.IsTree)
    (hlists : tree.Lists cargoes) (hcargo : cargo ∈ cargoes) : contents.Admits place cargo := by
  have hfile : ∀ path above data,
      Below above (place ++ path) → contents above ≠ some (.file data) :=
    fun path above data hbelow =>
      h.not_file hcontents (prefix_or_prefix_of_append hbelow.1) data
  obtain ⟨path, data?⟩ := cargo
  have habove : ¬ contents.FileAbove (place ++ path) := fun ⟨above, data, hbelow, hcontent⟩ =>
    hfile path above data hbelow hcontent
  cases data? with
  | none => exact ⟨h.not_file hcontents (.inr (List.prefix_append place path)), habove⟩
  | some data =>
    refine ⟨?_, habove⟩
    rw [h.eq_none (by simp [(hlists.file path data).mp hcargo])]
    simp

theorem deliver_of_admits (hclear : cargoes.Pairwise Cargo.Clear)
    (hadmits : ∀ cargo ∈ cargoes, contents.Admits place cargo) :
    contents.deliver place cargoes =
      ⟨cargoes.foldl (lay · place) contents, cargoes.countP fun cargo => cargo.2.isSome, []⟩ := by
  classical
  have hall : cargoes.filter (contents.Admits place ·) = cargoes := by
    rw [List.filter_eq_self]
    exact fun cargo hcargo => decide_eq_true (hadmits cargo hcargo)
  have hnone : cargoes.filter (¬ contents.Admits place ·) = [] := by
    rw [List.filter_eq_nil_iff]
    intro cargo hcargo
    simp [hadmits cargo hcargo]
  rw [deliver_eq hclear, ← List.countP_filter, hall, hnone]
  rfl

theorem Lists.deliver_of_takes (h : tree.Lists cargoes) (htree : tree.IsTree)
    (hlink : ∀ path target, tree path ≠ some (.link target)) (hcontents : contents.IsTree)
    (htakes : contents.Takes place tree) :
    ∃ after, contents.deliver place cargoes = ⟨after, tree.fileCount, []⟩ ∧
    after.under place = tree := by
  have hclear := h.pairwise_clear htree
  have hlaid := laid_foldl contents place hclear
  refine ⟨cargoes.foldl (lay · place) contents, ?_, ?_⟩
  . rw [h.fileCount_eq]
    exact deliver_of_admits hclear fun cargo hcargo => htakes.admits hcontents h hcargo
  . funext path
    by_cases hpath : tree path = none
    . have hkept : ∀ cargo ∈ cargoes, ¬ place ++ path <+: place ++ cargo.1 := by
        intro cargo hcargo hpre
        rw [List.prefix_append_right_inj, prefix_iff_eq_or_below] at hpre
        rcases hpre with rfl | hbelow
        . exact h.ne_none hcargo hpath
        . rw [htree.closed _ path (h.ne_none hcargo) hbelow] at hpath
          cases hpath
      rw [hpath]
      exact (hlaid.kept _ hkept).trans (htakes.eq_none (by simp [hpath]))
    . exact hlaid.arrived h hlink hpath

end Contents

end LakeStore
