import LakeStore.Proofs.Directory.Rooted
import LakeStore.Proofs.PathMap
import LakeStore.Proofs.Transfer.Delivery
import Mathlib.Data.List.Nodup

/-!
What a walk meets in a tree on the disk: each entry of the tree once, as long as the host takes the
texts of their paths. What a visit changes elsewhere on the disk does not lead the walk astray.
-/

namespace LakeStore

open StorePath

theorem HostPath.length_le_below {base : String} (hbase : base ≠ "") {path : StorePath}
    (hpath : path.Canonical) :
    path.length ≤ (below base path).utf8ByteSize := by
  induction path using List.reverseRecOn with
  | nil => exact Nat.zero_le _
  | append_singleton path name ih =>
    rw [canonical_append, canonical_singleton] at hpath
    have hlength := ih hpath.1
    have hname : name.utf8ByteSize ≠ 0 := by
      rw [ne_eq, String.utf8ByteSize_eq_zero_iff]
      exact hpath.2.nonempty
    rw [below_concat, join_of_isName (below_ne_empty hbase hpath.1) hpath.2, List.length_append,
      List.length_singleton]
    split
    . rw [String.utf8ByteSize_append]
      omega
    . rw [String.utf8ByteSize_append, String.utf8ByteSize_append]
      omega

namespace Disk

variable {disk new : Disk} {source : String} {location : Location} {path : StorePath} {node : Node}

def childrenOf (disk : Disk) (location : Location) : List (String × Node) :=
  (disk.nodes.children location).map fun (key, node) => (key.getLast?.getD "", node)

theorem mem_childrenOf {name : String} :
    (name, node) ∈ disk.childrenOf location ↔ disk.nodes.get? (location ++ [name]) = some node := by
  unfold childrenOf
  rw [List.mem_map]
  constructor
  . rintro ⟨⟨key, child⟩, hmem, heq⟩
    rw [PathMap.mem_children_iff] at hmem
    obtain ⟨last, rfl, hchild⟩ := hmem
    cases heq
    rw [List.getLast?_concat]
    exact hchild
  . intro hnode
    refine ⟨(location ++ [name], node), ?_, ?_⟩
    . rw [PathMap.mem_children_iff]
      exact ⟨name, rfl, hnode⟩
    . dsimp only
      rw [List.getLast?_concat]
      rfl

theorem nodup_childrenOf (disk : Disk) (location : Location) :
    (disk.childrenOf location).Pairwise fun a b => a.1 ≠ b.1 := by
  unfold childrenOf
  rw [List.pairwise_map]
  refine (disk.nodes.children_pairwise location).imp_of_mem ?_
  rintro ⟨key, a⟩ ⟨other, b⟩ ha hb hprecedes heq
  rw [PathMap.mem_children_iff] at ha hb
  obtain ⟨name, rfl, _⟩ := ha
  obtain ⟨name', rfl, _⟩ := hb
  dsimp only at heq
  rw [List.getLast?_concat, List.getLast?_concat] at heq
  apply hprecedes.1
  rw [show name = name' from heq]

theorem entriesIn_of_find {text : String} {modified : Time}
    (hfind : disk.find text = .ok (.taken location (.directory modified))) :
    disk.entriesIn text = .ok (disk.childrenOf location) := by
  unfold entriesIn
  rw [hfind]
  rfl

/--
Whether a local path leads to a directory or a file, and not to a link, and the host takes the path
of each directory and file of the tree there.
-/
structure Readable (disk : Disk) (source : String) (location : Location) : Prop where
  found : ∃ node, disk.findEntry source = .ok (.taken location node) ∧ ∀ target modified,
    node ≠ .link target modified
  fits : ∀ path, (disk.contentsAt location).withoutLinks path ≠ none →
    DirectoryClient.Accepts source path

theorem withoutLinks_ne_none (hlink : ∀ target modified, node ≠ .link target modified)
    (hnode : disk.nodes.get? (location ++ path) = some node) :
    (disk.contentsAt location).withoutLinks path ≠ none := by
  unfold Contents.withoutLinks contentsAt
  rw [hnode]
  cases node with
  | directory modified => simp [content]
  | file id => simp [content]
  | link target modified => exact absurd rfl (hlink target modified)

theorem exists_of_withoutLinks (h : (disk.contentsAt location).withoutLinks path ≠ none) :
    ∃ node, disk.nodes.get? (location ++ path) = some node ∧ ∀ target modified,
      node ≠ .link target modified := by
  have hthere := Contents.ne_none_of_withoutLinks h
  rw [ne_eq, contentsAt_eq_none_iff] at hthere
  obtain ⟨node, hnode⟩ := Option.ne_none_iff_exists'.mp hthere
  refine ⟨node, hnode, ?_⟩
  rintro target modified rfl
  apply h
  unfold Contents.withoutLinks contentsAt
  rw [hnode]
  rfl

/--
Whether a local path leads to an entry, if need be through a link, and the host takes the paths in
the tree there.
-/
structure Source (disk : Disk) (source : String) (location : Location) : Prop where
  found : ∃ node, disk.find source = .ok (.taken location node)
  fits : ∀ path, (disk.contentsAt location).withoutLinks path ≠ none →
    DirectoryClient.Accepts source path

/--
Whether a walk brings the root of a tree to a place: it begins at the root and not at a link to it,
or the root is a directory, and is there already or comes along with what is below it.
-/
def BringsRoot (disk : Disk) (source : String) (location place : Location) : Prop :=
  (∃ node, disk.findEntry source = .ok (.taken location node) ∧
    ∀ target modified, node ≠ .link target modified) ∨
  disk.IsDirectoryAt location ∧ (disk.contentsAt []).CanPutDirectory place ∧
    ((∃ path, path ≠ [] ∧ (disk.contentsAt location).withoutLinks path ≠ none) ∨
      disk.contentsAt [] place = some .directory)

theorem Readable.find_root (h : disk.Readable source location) :
    ∃ node, disk.find source = .ok (.taken location node) := by
  obtain ⟨node, hfound, hlink⟩ := h.found
  exact ⟨node, find_of_findEntry hlink hfound⟩

theorem Readable.toSource (h : disk.Readable source location) : disk.Source source location :=
  ⟨h.find_root, h.fits⟩

theorem Readable.root_ne_none (h : disk.Readable source location) (hdisk : disk.WellFormed) :
    (disk.contentsAt location).withoutLinks [] ≠ none := by
  obtain ⟨node, hfound, hlink⟩ := h.found
  apply withoutLinks_ne_none hlink
  rw [List.append_nil]
  exact findWith_holds hdisk hfound

theorem Source.find_of_get? (h : disk.Source source location) (hdisk : disk.WellFormed)
    (hlink : ∀ target modified, node ≠ .link target modified)
    (hnode : disk.nodes.get? (location ++ path) = some node) :
    disk.find (HostPath.below source path) = .ok (.taken (location ++ path) node) := by
  obtain ⟨found, hfind⟩ := h.found
  have hroot : disk.nodes.get? location = some found := findWith_holds hdisk hfind
  by_cases hnil : path = []
  . subst hnil
    rw [List.append_nil] at hnode ⊢
    rw [hroot, Option.some_inj] at hnode
    rw [← hnode]
    exact hfind
  . have hpath := (canonical_append.mp (hdisk.canonical hnode)).2
    have haccepts := h.fits path (withoutLinks_ne_none hlink hnode)
    obtain ⟨modified, hdirectory⟩ := hdisk.above hnode (below_append hnil)
    rw [hroot, Option.some_inj] at hdirectory
    rw [hdirectory] at hfind
    have hsource := (checkText_eq_ok_iff.mp (checkText_of_findWith hfind)).2.1
    obtain ⟨expand, hbelow⟩ := findWith_below hfind hpath hnil haccepts.checked ⟨true, false, false⟩
    unfold find
    rw [HostPath.endsInSlash_below hsource hpath hnil, hbelow]
    exact follow_of_get? hdisk hpath haccepts.short rfl hlink hnode

structure ReadsAlike (source : String) (location : Location) (old new : Disk) : Prop where
  find : ∀ path node, old.nodes.get? (location ++ path) = some node →
    (∀ target modified, node ≠ .link target modified) →
    new.find (HostPath.below source path) = .ok (.taken (location ++ path) node)
  children : ∀ path, new.childrenOf (location ++ path) = old.childrenOf (location ++ path)

theorem Source.readsAlike (h : disk.Source source location) (hdisk : disk.WellFormed)
    (hkeeps : disk.Keeps new) (hhere : new.here = disk.here)
    (hsame : ∀ path, new.nodes.get? (location ++ path) = disk.nodes.get? (location ++ path)) :
    ReadsAlike source location disk new := by
  constructor
  . intro path node hnode hlink
    exact findWith_keeps hkeeps hhere (h.find_of_get? hdisk hlink hnode)
  . intro path
    unfold childrenOf
    rw [PathMap.children_congr (fun _ _ hnode => hdisk.canonical hnode)]
    intro name
    rw [List.append_assoc]
    exact hsame (path ++ [name])

def itemsBelow (disk : Disk) (location : Location) :
    (depth : Nat) → (path : StorePath) → List WalkItem
  | 0, _ => []
  | depth + 1, path =>
    (disk.childrenOf (location ++ path)).flatMap fun (name, node) =>
      .found (path ++ [name]) node ::
        if node.isDirectory then disk.itemsBelow location depth (path ++ [name]) else []

def items (disk : Disk) (location : Location) : List WalkItem :=
  match disk.nodes.get? location with
  | some (.directory modified) =>
    .found [] (.directory modified) :: disk.itemsBelow location maxPath []
  | some node => [.found [] node]
  | none => []

def itemsFrom (disk : Disk) (entry : Node) (location : Location) : List WalkItem :=
  .found [] entry ::
    match disk.nodes.get? location with
    | some (.directory _) => disk.itemsBelow location maxPath []
    | _ => []

theorem items_eq_itemsFrom (hnode : disk.nodes.get? location = some node) :
    disk.items location = disk.itemsFrom node location := by
  unfold items itemsFrom
  rw [hnode]
  cases node with
  | directory modified => rfl
  | file id => rfl
  | link target modified => rfl

theorem mem_itemsBelow (hdisk : disk.WellFormed) {depth : Nat} {item : WalkItem} :
    item ∈ disk.itemsBelow location depth path ↔
      ∃ rest node, rest ≠ [] ∧ rest.length ≤ depth ∧ item = .found (path ++ rest) node ∧
        disk.nodes.get? (location ++ path ++ rest) = some node := by
  induction depth generalizing path with
  | zero =>
    simp only [itemsBelow, List.not_mem_nil, false_iff]
    rintro ⟨rest, node, hne, hlength, _⟩
    exact hne (List.eq_nil_of_length_eq_zero (Nat.le_zero.mp hlength))
  | succ depth ih =>
    unfold itemsBelow
    rw [List.mem_flatMap]
    constructor
    . rintro ⟨⟨name, node⟩, hchild, hitem⟩
      rw [mem_childrenOf] at hchild
      rw [List.mem_cons] at hitem
      cases hitem with
      | inl heq => exact ⟨[name], node, by simp, by simp, heq, hchild⟩
      | inr hmem =>
        split at hmem
        . rw [ih] at hmem
          obtain ⟨rest, found, hne, hlength, heq, hfound⟩ := hmem
          refine ⟨name :: rest, found, by simp, ?_, ?_, ?_⟩
          . rw [List.length_cons]
            omega
          . rw [heq, List.append_assoc, List.singleton_append]
          . rw [← hfound]
            simp
        . cases hmem
    . rintro ⟨rest, found, hne, hlength, rfl, hfound⟩
      obtain ⟨name, rest, rfl⟩ := List.exists_cons_of_ne_nil hne
      by_cases hnil : rest = []
      . subst hnil
        exact ⟨(name, found), mem_childrenOf.mpr hfound, .head _⟩
      . rw [List.append_cons] at hfound
        obtain ⟨modified, hdirectory⟩ := hdisk.above hfound (below_append hnil)
        refine ⟨(name, .directory modified), mem_childrenOf.mpr hdirectory, .tail _ ?_⟩
        change _ ∈ disk.itemsBelow location depth (path ++ [name])
        rw [ih]
        refine ⟨rest, found, hnil, ?_, ?_, ?_⟩
        . rw [List.length_cons] at hlength
          omega
        . rw [List.append_assoc, List.singleton_append]
        . rw [← hfound]
          simp

theorem names_of_mem_itemsBelow (hdisk : disk.WellFormed) {depth : Nat} {item : WalkItem}
    (h : item ∈ disk.itemsBelow location depth path) : Below path item.names := by
  obtain ⟨rest, node, hne, _, rfl, _⟩ := (mem_itemsBelow hdisk).mp h
  exact below_append hne

theorem nodup_itemsBelow (hdisk : disk.WellFormed) (depth : Nat) (path : StorePath) :
    (disk.itemsBelow location depth path).Pairwise fun a b => a.names ≠ b.names := by
  induction depth generalizing path with
  | zero => exact .nil
  | succ depth ih =>
    -- Every item comes from one child of the directory, and its names start with the name of the
    -- child.
    have hstart : ∀ child : String × Node, ∀ item ∈
        (WalkItem.found (path ++ [child.1]) child.2 ::
          if child.2.isDirectory then disk.itemsBelow location depth (path ++ [child.1]) else []),
        path ++ [child.1] <+: item.names := by
      intro child item hitem
      rw [List.mem_cons] at hitem
      cases hitem with
      | inl heq => rw [heq]; exact List.prefix_rfl
      | inr hmem =>
        split at hmem
        . exact (names_of_mem_itemsBelow hdisk hmem).1
        . cases hmem
    unfold itemsBelow
    rw [List.pairwise_flatMap]
    constructor
    . rintro ⟨name, node⟩ _
      rw [List.pairwise_cons]
      constructor
      . intro item hitem heq
        split at hitem
        . exact (names_of_mem_itemsBelow hdisk hitem).2 heq
        . cases hitem
      . split
        . exact ih (path ++ [name])
        . exact .nil
    . refine (nodup_childrenOf disk (location ++ path)).imp ?_
      intro child other hne a ha b hb heq
      have hchild := hstart child a ha
      have hother := hstart other b hb
      rw [heq] at hchild
      have hsame := List.prefix_of_prefix_length_le hchild hother (by simp)
      rw [List.prefix_append_right_inj, List.cons_prefix_cons] at hsame
      exact hne hsame.1

theorem Source.length_le (h : disk.Source source location) (hdisk : disk.WellFormed)
    (hnode : disk.nodes.get? (location ++ path) = some node) : path.length ≤ maxPath := by
  obtain ⟨found, hfound⟩ := h.found
  have hsource := (checkText_eq_ok_iff.mp (checkText_of_findWith hfound)).2.1
  cases path using List.reverseRecOn with
  | nil => exact Nat.zero_le _
  | append_singleton path name =>
    have hpath := (canonical_append.mp (hdisk.canonical hnode)).2
    rw [← List.append_assoc] at hnode
    obtain ⟨modified, hparent⟩ := hdisk.parent _ _ _ hnode
    have haccepts := h.fits path (withoutLinks_ne_none (by simp) hparent)
    have hshort := (checkText_eq_ok_iff.mp haccepts.checked).2.2
    have hlength := HostPath.length_le_below hsource (canonical_append.mp hpath).1
    rw [List.length_append, List.length_singleton]
    omega

theorem Source.mem_itemsFrom (h : disk.Source source location) (hdisk : disk.WellFormed)
    {entry : Node} {item : WalkItem} :
    item ∈ disk.itemsFrom entry location ↔ item = .found [] entry ∨
      ∃ path node,
        path ≠ [] ∧ item = .found path node ∧ disk.nodes.get? (location ++ path) = some node := by
  obtain ⟨found, hfound⟩ := h.found
  have hroot : disk.nodes.get? location = some found := findWith_holds hdisk hfound
  have hdirectory : ∀ path node, path ≠ [] → disk.nodes.get? (location ++ path) = some node →
      ∃ modified, found = .directory modified := by
    intro path node hne hnode
    obtain ⟨modified, hdirectory⟩ := hdisk.above hnode (below_append hne)
    rw [hroot, Option.some_inj] at hdirectory
    exact ⟨modified, hdirectory⟩
  unfold itemsFrom
  rw [hroot, List.mem_cons]
  apply or_congr_right
  split
  . rw [mem_itemsBelow hdisk, List.append_nil]
    constructor
    . rintro ⟨rest, node, hne, _, heq, hnode⟩
      exact ⟨rest, node, hne, heq, hnode⟩
    . rintro ⟨path, node, hne, heq, hnode⟩
      exact ⟨path, node, hne, h.length_le hdisk hnode, heq, hnode⟩
  . next hnot =>
    simp only [List.not_mem_nil, false_iff]
    rintro ⟨path, node, hne, _, hnode⟩
    obtain ⟨modified, rfl⟩ := hdirectory path node hne hnode
    exact hnot modified rfl

theorem Source.exists_of_mem_itemsFrom (h : disk.Source source location) (hdisk : disk.WellFormed)
    {entry : Node} {item : WalkItem} (hmem : item ∈ disk.itemsFrom entry location) :
    ∃ path node, item = .found path node := by
  rcases (h.mem_itemsFrom hdisk).mp hmem with rfl | ⟨path, node, _, rfl, _⟩
  . exact ⟨_, _, rfl⟩
  . exact ⟨_, _, rfl⟩

theorem nodup_itemsFrom (hdisk : disk.WellFormed) (entry : Node) (location : Location) :
    (disk.itemsFrom entry location).Pairwise fun a b => a.names ≠ b.names := by
  unfold itemsFrom
  rw [List.pairwise_cons]
  split
  . refine ⟨?_, nodup_itemsBelow hdisk maxPath []⟩
    intro item hitem
    exact (names_of_mem_itemsBelow hdisk hitem).2
  . exact ⟨by simp, .nil⟩

theorem mem_items (h : disk.Source source location) (hdisk : disk.WellFormed) {item : WalkItem} :
    item ∈ disk.items location ↔
      ∃ path node, item = .found path node ∧ disk.nodes.get? (location ++ path) = some node := by
  obtain ⟨found, hfound⟩ := h.found
  have hroot : disk.nodes.get? location = some found := findWith_holds hdisk hfound
  rw [items_eq_itemsFrom hroot, h.mem_itemsFrom hdisk]
  constructor
  . rintro (rfl | ⟨path, node, _, heq, hnode⟩)
    . refine ⟨[], found, rfl, ?_⟩
      rw [List.append_nil]
      exact hroot
    . exact ⟨path, node, heq, hnode⟩
  . rintro ⟨path, node, rfl, hnode⟩
    by_cases hnil : path = []
    . subst hnil
      rw [List.append_nil, hroot, Option.some_inj] at hnode
      exact .inl (by rw [hnode])
    . exact .inr ⟨path, node, hnil, rfl, hnode⟩

theorem Source.get?_of_mem_itemsFrom (h : disk.Source source location) (hdisk : disk.WellFormed)
    {found : Location} (hentry : disk.findEntry source = .ok (.taken found entry))
    {path : StorePath} {node : Node} (hmem : .found path node ∈ disk.itemsFrom entry location)
    (hlink : ∀ target modified, node ≠ .link target modified) :
    disk.nodes.get? (location ++ path) = some node := by
  rw [h.mem_itemsFrom hdisk] at hmem
  rcases hmem with heq | ⟨other, found, _, heq, hnode⟩
  . cases heq
    obtain ⟨root, hroot⟩ := h.found
    rw [find_of_findEntry hlink hentry] at hroot
    cases hroot
    rw [List.append_nil]
    exact findWith_holds hdisk hentry
  . cases heq
    exact hnode

end Disk

def WalkItem.cargo? (disk : Disk) : WalkItem → Option Cargo
  | .found names (.directory _) => some (names, none)
  | .found names (.file id) => some (names, some (disk.contents id))
  | .found _ (.link ..) => none
  | .failed .. => none

theorem WalkItem.names_of_cargo? {disk : Disk} {item : WalkItem} {cargo : Cargo}
    (h : item.cargo? disk = some cargo) :
    item.names = cargo.1 := by
  cases item with
  | failed names error => cases h
  | found names node =>
    cases node with
    | directory modified =>
      cases h
      rfl
    | file id =>
      cases h
      rfl
    | link target modified => cases h

namespace Disk

variable {disk new : Disk} {source : String} {location place : Location} {path : StorePath}
  {node entry : Node}

def cargoesFrom (disk : Disk) (entry : Node) (location : Location) : List Cargo :=
  (disk.itemsFrom entry location).filterMap (WalkItem.cargo? disk)

theorem Source.canonical_of_mem_cargoes (h : disk.Source source location) (hdisk : disk.WellFormed)
    {cargo : Cargo} (hcargo : cargo ∈ disk.cargoesFrom entry location) : cargo.1.Canonical := by
  unfold cargoesFrom at hcargo
  rw [List.mem_filterMap] at hcargo
  obtain ⟨item, hitem, hcargo⟩ := hcargo
  rw [← WalkItem.names_of_cargo? hcargo]
  rw [h.mem_itemsFrom hdisk] at hitem
  rcases hitem with rfl | ⟨path, node, _, rfl, hnode⟩
  . exact canonical_nil
  . exact (canonical_append.mp (hdisk.canonical hnode)).2

theorem BringsRoot.cargoes_ne_nil (h : disk.BringsRoot source location place)
    (hsource : disk.Source source location) (hdisk : disk.WellFormed) {found : Location}
    (hentry : disk.findEntry source = .ok (.taken found entry))
    (hplace : disk.contentsAt [] place ≠ some .directory) :
    disk.cargoesFrom entry location ≠ [] := by
  suffices hitem : ∃ path node, .found path node ∈ disk.itemsFrom entry location ∧
      ∀ target modified, node ≠ .link target modified by
    obtain ⟨path, node, hmem, hlink⟩ := hitem
    obtain ⟨cargo, hcargo⟩ : ∃ cargo, (WalkItem.found path node).cargo? disk = some cargo := by
      cases node with
      | directory modified => exact ⟨_, rfl⟩
      | file id => exact ⟨_, rfl⟩
      | link target modified => exact absurd rfl (hlink target modified)
    exact List.ne_nil_of_mem (List.mem_filterMap.mpr ⟨_, hmem, hcargo⟩)
  rcases h with ⟨node, hnode, hlink⟩ | ⟨_, _, ⟨path, hne, hpath⟩ | hdirectory⟩
  . rw [hentry] at hnode
    cases hnode
    exact ⟨[], entry, (hsource.mem_itemsFrom hdisk).mpr (.inl rfl), hlink⟩
  . obtain ⟨node, hnode, hlink⟩ := exists_of_withoutLinks hpath
    exact ⟨path, node, (hsource.mem_itemsFrom hdisk).mpr (.inr ⟨path, node, hne, rfl, hnode⟩),
      hlink⟩
  . exact absurd hdirectory hplace

theorem cargoesFrom_file {id : Nat} (hnode : disk.nodes.get? location = some (.file id))
    (entry : Node) :
    disk.cargoesFrom entry location = ((WalkItem.found [] entry).cargo? disk).toList := by
  unfold cargoesFrom itemsFrom
  rw [hnode]
  dsimp only
  rw [List.filterMap_cons]
  cases (WalkItem.found [] entry).cargo? disk <;> rfl

theorem nodup_cargoesFrom (hdisk : disk.WellFormed) (entry : Node) (location : Location) :
    ((disk.cargoesFrom entry location).map Prod.fst).Nodup := by
  have hnodup := nodup_itemsFrom hdisk entry location
  unfold cargoesFrom
  rw [List.Nodup, List.pairwise_map, List.pairwise_filterMap]
  refine hnodup.imp ?_
  intro item other hne cargo hcargo another hanother
  rw [← WalkItem.names_of_cargo? hcargo, ← WalkItem.names_of_cargo? hanother]
  exact hne

theorem Source.mem_cargoesFrom (h : disk.Source source location) (hdisk : disk.WellFormed)
    (hnode : disk.nodes.get? location = some node) {data? : Option ByteArray} :
    (path, data?) ∈ disk.cargoesFrom node location ↔ ∃ found,
      disk.nodes.get? (location ++ path) = some found ∧
        (WalkItem.found path found).cargo? disk = some (path, data?) := by
  unfold cargoesFrom
  rw [← items_eq_itemsFrom hnode, List.mem_filterMap]
  constructor
  . rintro ⟨item, hitem, hcargo⟩
    have hnames := WalkItem.names_of_cargo? hcargo
    obtain ⟨other, found, rfl, hfound⟩ := (mem_items h hdisk).mp hitem
    obtain rfl : other = path := hnames
    exact ⟨found, hfound, hcargo⟩
  . rintro ⟨found, hfound, hcargo⟩
    exact ⟨_, (mem_items h hdisk).mpr ⟨path, found, rfl, hfound⟩, hcargo⟩

theorem Source.lists_cargoes (h : disk.Source source location) (hdisk : disk.WellFormed)
    (hnode : disk.nodes.get? location = some node) :
    (disk.contentsAt location).Lists (disk.cargoesFrom node location) := by
  refine ⟨nodup_cargoesFrom hdisk node location, ?_, ?_⟩
  . intro path
    rw [h.mem_cargoesFrom hdisk hnode, contentsAt_eq_directory_iff]
    constructor
    . rintro ⟨found, hfound, hcargo⟩
      cases found with
      | directory modified => exact ⟨modified, hfound⟩
      | file id => cases hcargo
      | link target modified => cases hcargo
    . rintro ⟨modified, hfound⟩
      exact ⟨_, hfound, rfl⟩
  . intro path data
    rw [h.mem_cargoesFrom hdisk hnode, contentsAt_eq_file_iff]
    constructor
    . rintro ⟨found, hfound, hcargo⟩
      cases found with
      | directory modified => cases hcargo
      | file id =>
        cases hcargo
        exact ⟨id, hfound, rfl⟩
      | link target modified => cases hcargo
    . rintro ⟨id, hfound, rfl⟩
      exact ⟨_, hfound, rfl⟩

theorem cargoesFrom_directory {target : String} {modified linked : Time}
    (hnode : disk.nodes.get? location = some (.directory modified)) :
    disk.cargoesFrom (.directory modified) location =
      ([], none) :: disk.cargoesFrom (.link target linked) location := by
  unfold cargoesFrom itemsFrom
  rw [hnode]
  rfl

section visit

variable {α : Type} {visit : α → WalkItem → StateM Disk α} {all : List WalkItem}
  {P : List WalkItem → α → Disk → Prop}

theorem foldlM_follows {β : Type} {itemsOf : β → List WalkItem} {step : α → β → StateM Disk α}
    {children : List β} (hstep : ∀ child ∈ children, ∀ done result new,
      done ++ itemsOf child <+: all → P done result new →
      P (done ++ itemsOf child) ((step result child).run new).1 ((step result child).run new).2)
    {done : List WalkItem} {result : α} (hall : done ++ children.flatMap itemsOf <+: all)
    (h : P done result new) :
    P (done ++ children.flatMap itemsOf) ((children.foldlM step result).run new).1
      ((children.foldlM step result).run new).2 := by
  induction children generalizing done result new with
  | nil =>
    rw [List.flatMap_nil, List.append_nil]
    exact h
  | cons child rest ih =>
    rw [List.forall_mem_cons] at hstep
    rw [List.flatMap_cons, ← List.append_assoc] at hall ⊢
    rw [List.foldlM_cons]
    apply ih hstep.2 hall
    exact hstep.1 done result new ((List.prefix_append _ _).trans hall) h

theorem visitBelow_follows
    (hread : ∀ done result new, P done result new → ReadsAlike source location disk new)
    (hvisit : ∀ done item result new, done ++ [item] <+: all → P done result new →
      P (done ++ [item]) ((visit result item).run new).1 ((visit result item).run new).2)
    (depth : Nat) {path : StorePath} (hdirectory : disk.IsDirectoryAt (location ++ path))
    {done : List WalkItem} {result : α} (hall : done ++ disk.itemsBelow location depth path <+: all)
    (h : P done result new) :
    P (done ++ disk.itemsBelow location depth path)
      ((visitBelow visit source depth path result).run new).1
      ((visitBelow visit source depth path result).run new).2 := by
  induction depth generalizing path done result new with
  | zero =>
    unfold itemsBelow
    rw [List.append_nil]
    exact h
  | succ depth ih =>
    obtain ⟨modified, hnode⟩ := hdirectory
    have hentries : new.entriesIn (HostPath.below source path) =
        .ok (disk.childrenOf (location ++ path)) := by
      have halike := hread done result new h
      rw [← halike.children path]
      exact entriesIn_of_find (halike.find path _ hnode (by simp))
    unfold itemsBelow at hall ⊢
    unfold visitBelow
    rw [Step.run_get_bind, hentries]
    dsimp only
    refine foldlM_follows ?_ hall h
    rintro ⟨name, node⟩ hchild done result new hall h
    rw [mem_childrenOf, List.append_assoc] at hchild
    dsimp only at hall ⊢
    rw [List.append_cons] at hall ⊢
    have hfound := hvisit done _ result new ((List.prefix_append _ _).trans hall) h
    rw [Step.run_bind]
    cases node with
    | directory time => exact ih ⟨time, hchild⟩ hall hfound
    | file id =>
      change P (done ++ [.found (path ++ [name]) (.file id)] ++ []) _ _
      rw [List.append_nil]
      exact hfound
    | link target time =>
      change P (done ++ [.found (path ++ [name]) (.link target time)] ++ []) _ _
      rw [List.append_nil]
      exact hfound

theorem Source.visitTree_follows (h : disk.Source source location) (hdisk : disk.WellFormed)
    {place : Location} {entry : Node} (hentry : new.findEntry source = .ok (.taken place entry))
    (hread : ∀ done result new, P done result new → ReadsAlike source location disk new)
    (hvisit : ∀ done item result new, done ++ [item] <+: disk.itemsFrom entry location →
      P done result new →
      P (done ++ [item]) ((visit result item).run new).1 ((visit result item).run new).2)
    {result : α} (hstart : P [] result new) :
    P (disk.itemsFrom entry location) ((visitTree visit source result).run new).1
      ((visitTree visit source result).run new).2 := by
  obtain ⟨node, hfound⟩ := h.found
  have hroot : disk.nodes.get? location = some node := findWith_holds hdisk hfound
  have hvisited := hvisit [] (.found [] entry) result new (List.prefix_append [_] _) hstart
  have hdirectory : Disk.isDirectory ((visit result (.found [] entry)).run new).2 source =
      node.isDirectory := by
    have halike := hread _ _ _ hvisited
    have hnode := hroot
    rw [← List.append_nil location] at hnode
    exact isDirectory_of_find (halike.find [] node hnode (find_resolved hdisk hfound))
  unfold visitTree
  rw [Step.run_get_bind, hentry]
  dsimp only [Except.bind, Spot.node]
  rw [Step.run_bind, Step.run_get_bind, hdirectory]
  unfold itemsFrom at hvisit ⊢
  rw [hroot] at hvisit ⊢
  cases node with
  | link target modified => exact hvisited
  | file id => exact hvisited
  | directory modified =>
    apply visitBelow_follows hread hvisit maxPath _ _ hvisited
    . rw [List.append_nil]
      exact ⟨modified, hroot⟩
    . exact List.prefix_rfl

theorem Source.walk_eq_itemsFrom (h : disk.Source source location) (hdisk : disk.WellFormed)
    {place : Location} {entry : Node} (hentry : disk.findEntry source = .ok (.taken place entry)) :
    disk.walk source = disk.itemsFrom entry location := by
  let Q : List WalkItem → List WalkItem → Disk → Prop := fun done items new =>
    items = done ∧ new = disk
  have hread : ∀ done items new, Q done items new → ReadsAlike source location disk new := by
    rintro done items new ⟨_, rfl⟩
    exact h.readsAlike hdisk (fun _ _ hnode => hnode) rfl fun _ => rfl
  have hwalk : Q (disk.itemsFrom entry location)
      ((visitTree (fun items item => return items ++ [item]) source []).run disk).1
      ((visitTree (fun items item => return items ++ [item]) source []).run disk).2 := by
    apply h.visitTree_follows hdisk hentry hread
    . rintro done item items new _ ⟨rfl, rfl⟩
      exact ⟨rfl, rfl⟩
    . exact ⟨rfl, rfl⟩
  exact hwalk.1

end visit

end Disk

end LakeStore
