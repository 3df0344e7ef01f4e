import LakeStore.Proofs.Transfer.Detour
import LakeStore.Proofs.Transfer.UploadDelivery

/-!
A tree comes whole to a place that takes it, in an upload and in a download, whichever client keeps
the store.
-/

namespace LakeStore

open StorePath

namespace Disk

variable {disk start : Disk} {text : String} {location origin place directory : Location}
  {path : StorePath}
  {tree : Contents} {cargoes : List Cargo} {transfer : Transfer} {label : StorePath → String}

theorem apart_of_takes (htakes : (disk.contentsAt location).Takes path tree) {node : Node}
    (hnode : disk.nodes.get? origin = some node) (hnot : ¬ origin <+: location ++ path) :
    Apart origin (location ++ path) := by
  refine ⟨hnot, ?_⟩
  rintro ⟨rest, rfl⟩
  by_cases hnil : rest = []
  . rw [hnil, List.append_nil] at hnot
    exact hnot List.prefix_rfl
  . have hnone := htakes.empty _ (below_append hnil)
    rw [contentsAt_eq_none_iff, ← List.append_assoc, hnode] at hnone
    cases hnone

theorem alone_of_takes (hdisk : disk.WellFormed)
    (htakes : (disk.contentsAt location).Takes path tree) (rest : StorePath) :
    disk.Alone (location ++ (path ++ rest)) := by
  intro id other hfile
  have hcontent := contentsAt_eq_file_iff.mpr ⟨id, hfile, rfl⟩
  exact absurd hcontent (htakes.not_file (isTree_contentsAt hdisk location)
    (.inr (List.prefix_append path rest)) _)

theorem Delivered.of_takes (h : Delivered start place label cargoes transfer disk)
    (hstart : start.WellFormed) (hlists : tree.Lists cargoes) (htree : tree.IsTree)
    (hlink : ∀ path target, tree path ≠ some (.link target))
    (htakes : (start.contentsAt []).Takes place tree) :
    transfer = ⟨tree.fileCount, []⟩ ∧ start.Grows disk ∧ disk.contentsAt place = tree := by
  obtain ⟨after, hdeliver, hafter⟩ :=
    hlists.deliver_of_takes htree hlink (isTree_contentsAt hstart []) htakes
  obtain ⟨hgrowsTo, hreported⟩ := h
  rw [hdeliver] at hgrowsTo hreported
  have hcontents : disk.contentsAt [] = after := hgrowsTo.contents
  refine ⟨hreported.eq_of_complete rfl, hgrowsTo.grows, ?_⟩
  rw [← hafter, ← hcontents]
  exact disk.contentsAt_append [] place

end Disk

section upload

variable {account source path : String} {origin location : Location}

theorem MemoryClient.Sound.upload_copies {client : MemoryClient} (h : client.Sound account)
    (hsource : client.disk.Readable source origin)
    (htakes : client.tree.contents.Takes (ofString path)
      (client.disk.contentsAt origin).withoutLinks) :
    ∃ stored, (upload source path).outcome client =
        (.ok ⟨(client.disk.contentsAt origin).withoutLinks.fileCount, []⟩,
          { client with tree := stored }) ∧
      stored.contents.under (ofString path) = (client.disk.contentsAt origin).withoutLinks := by
  have htree := (Disk.isTree_contentsAt h.disk origin).withoutLinks
  obtain ⟨cargoes, hentries, hall⟩ := exists_cargoes hsource h.disk
  have hlists := hall.withoutLinks
  obtain ⟨transfer, stored, hupload, hreported, hstored⟩ :=
    h.upload_delivers hentries fun cargo hcargo => htree.canonical _ (hlists.ne_none hcargo)
  obtain ⟨after, hdeliver, hafter⟩ :=
    hlists.deliver_of_takes htree (Contents.withoutLinks_ne_link _) h.tree.isTree htakes
  rw [hdeliver] at hreported hstored
  refine ⟨stored, ?_, ?_⟩
  . rw [hupload, hreported.eq_of_complete rfl]
  . rw [hstored, hafter]

theorem DirectoryClient.Rooted.upload_copies {client : DirectoryClient}
    (h : client.Rooted account location) (hsource : client.disk.Readable source origin)
    (htakes : (client.disk.contentsAt location).Takes (ofString path)
      (client.disk.contentsAt origin).withoutLinks)
    (hapart : ¬ origin <+: location ++ ofString path)
    (hfits : ∀ rest, (client.disk.contentsAt origin).withoutLinks rest ≠ none →
      Accepts client.base (ofString path ++ rest)) :
    ∃ stored, (upload source path).outcome client =
        (.ok ⟨(client.disk.contentsAt origin).withoutLinks.fileCount, []⟩,
          { client with disk := stored }) ∧
      client.disk.Grows stored ∧
      stored.contentsAt (location ++ ofString path) =
        (client.disk.contentsAt origin).withoutLinks := by
  obtain ⟨node, hentry, _⟩ := hsource.found
  have hnode : client.disk.nodes.get? origin = some node := Disk.findWith_holds h.wellFormed hentry
  have htree := (Disk.isTree_contentsAt h.wellFormed origin).withoutLinks
  have hlists := (hsource.toSource.lists_cargoes h.wellFormed hnode).withoutLinks
  obtain ⟨transfer, stored, hupload, hreported, hgrows, hstored⟩ :=
    h.upload_delivers hsource.toSource hentry (Disk.apart_of_takes htakes hnode hapart)
      (fun rest _ => Disk.alone_of_takes h.wellFormed htakes rest) hfits
  obtain ⟨after, hdeliver, hafter⟩ :=
    hlists.deliver_of_takes htree (Contents.withoutLinks_ne_link _)
    h.contents_wellFormed.isTree htakes
  rw [hdeliver] at hreported hstored
  refine ⟨stored, ?_, hgrows, ?_⟩
  . rw [hupload, hreported.eq_of_complete rfl]
  . rw [Disk.contentsAt_append, hstored, hafter]

end upload

/--
Whether a place is outside of a tree, and what is made on the way there leaves the tree as it is.
-/
structure Disk.Spares (disk : Disk) (origin : Location) (made : Disk) (place : Location) :
    Prop where
  outside : ¬ origin <+: place
  same : made.contentsAt origin = disk.contentsAt origin

section download

variable {path target : String} {origin place : Location} {made : Disk} {tree : Contents}

theorem MemoryClient.download_awaited (client : MemoryClient) (h : client.disk.WellFormed)
    (htree : (client.tree.contents.under (ofString path)).IsTree)
    (hlink : ∀ rest destination,
      client.tree.contents.under (ofString path) rest ≠ some (.link destination))
    (hroot : client.tree.contents (ofString path) ≠ none)
    (hawaits : client.disk.Awaits target made place)
    (hfits : ∀ rest, client.tree.contents.under (ofString path) rest ≠ none →
      DirectoryClient.Accepts target rest) :
    (download path target).outcome client = (download path target).outcome
    { client with disk := made } := by
  obtain ⟨cargoes, hentries, hlists⟩ := Memory.Tree.exists_snapshot hroot
  have hcargoes : ∀ cargo ∈ cargoes,
      cargo.1.Canonical ∧ DirectoryClient.Accepts target cargo.1 := by
    intro cargo hcargo
    have hthere := hlists.ne_none hcargo
    exact ⟨htree.canonical _ hthere, hfits _ hthere⟩
  have hne : cargoes ≠ [] := by
    have hthere : client.tree.contents.under (ofString path) [] ≠ none := by
      unfold Contents.under
      rw [List.append_nil]
      exact hroot
    obtain ⟨data?, hmem⟩ := hlists.exists_of_ne_none hlink hthere
    exact List.ne_nil_of_mem hmem
  unfold download
  rw [Step.outcome_bind_ok (Step.outcome_get _), Step.outcome_bind_ok (Step.outcome_get _)]
  dsimp only
  rw [hentries]
  dsimp only
  rw [onDisk_outcome, onDisk_outcome, Step.outcome_liftM, Step.outcome_liftM,
    hawaits.downloadEntries h (ofString_canonical path) hne hcargoes]

theorem MemoryClient.download_copies (client : MemoryClient) (h : client.disk.WellFormed)
    (hstored : client.tree.contents.under (ofString path) = tree) (htree : tree.IsTree)
    (hnone : tree [] ≠ none) (hlink : ∀ path destination, tree path ≠ some (.link destination))
    (hawaits : client.disk.Awaits target made place)
    (hfits : ∀ path, tree path ≠ none → DirectoryClient.Accepts target path) :
    ∃ new, (download path target).outcome client = (.ok ⟨tree.fileCount, []⟩,
      { client with disk := new }) ∧
      made.Grows new ∧ new.contentsAt place = tree := by
  subst hstored
  have hroot : client.tree.contents (ofString path) ≠ none := by
    unfold Contents.under at hnone
    rw [List.append_nil] at hnone
    exact hnone
  have hmade := (hawaits.grows h).wellFormed
  rw [client.download_awaited h htree hlink hroot hawaits hfits]
  obtain ⟨directory, missing, rfl, hvacant⟩ := hawaits.exists_vacant
  let client' : MemoryClient := { client with disk := made }
  obtain ⟨cargoes, transfer, new, hlists, hdownload, hdelivered⟩ :=
    client'.exists_download hmade htree hroot (hvacant.reaches hmade) (hvacant.hasWay hmade hfits)
  obtain ⟨rfl, hgrows, hcontents⟩ :=
    hdelivered.of_takes hmade hlists htree hlink (hvacant.takes hmade _)
  exact ⟨new, hdownload, hgrows, hcontents⟩

theorem DirectoryClient.download_copies {client : DirectoryClient} (h : client.disk.WellFormed)
    (hstored : client.disk.Source (client.fullPath path) origin)
    (hawaits : client.disk.Awaits target made place)
    (hspares : client.disk.Spares origin made place)
    (hroot : made.BringsRoot (client.fullPath path) origin place)
    (hfits : ∀ rest, (client.disk.contentsAt origin).withoutLinks rest ≠ none →
      Accepts target rest) :
    ∃ new, (download path target).outcome client =
        (.ok ⟨(client.disk.contentsAt origin).withoutLinks.fileCount, []⟩,
          { client with disk := new }) ∧
      made.Grows new ∧ new.contentsAt place = (client.disk.contentsAt origin).withoutLinks := by
  have hgrows := hawaits.grows h
  have hmade := hgrows.wellFormed
  obtain ⟨node, hfind⟩ := hstored.found
  obtain ⟨found, entry, hentry⟩ := Disk.exists_findEntry hfind
  have hmadeFind := Disk.findWith_keeps hgrows.keeps hgrows.here hfind
  have hmadeEntry := Disk.findWith_keeps hgrows.keeps hgrows.here hentry
  have hnode : made.nodes.get? origin = some node := Disk.findWith_holds hmade hmadeFind
  rw [← hspares.same] at hfits ⊢
  have hmadeSource : made.Source (client.fullPath path) origin := by
    refine ⟨⟨node, hmadeFind⟩, ?_⟩
    rw [hspares.same]
    exact hstored.fits
  have htakes := hawaits.takes h (made.contentsAt origin).withoutLinks
  have hapart := Disk.apart_of_takes htakes hnode hspares.outside
  rw [List.nil_append] at hapart
  have hcopied := hawaits.copyTree_delivers h hstored hentry hspares.same hapart hfits
    (hroot.cargoes_ne_nil hmadeSource hmade hmadeEntry (by simp [hawaits.contents_eq_none h]))
  have hdelivered := hcopied.of_bringsRoot hmade hmadeSource hmadeFind hmadeEntry hroot
  generalize hcopy : (copyTree (client.fullPath path) target).run client.disk = result at hdelivered
  obtain ⟨transfer, new⟩ := result
  have htree := (Disk.isTree_contentsAt hmade origin).withoutLinks
  have hlists := (hmadeSource.lists_cargoes hmade hnode).withoutLinks
  obtain ⟨rfl, hgrowsNew, hcontents⟩ :=
    hdelivered.of_takes hmade hlists htree (Contents.withoutLinks_ne_link _) htakes
  exact ⟨new, download_outcome hfind hcopy, hgrowsNew, hcontents⟩

end download

end LakeStore
