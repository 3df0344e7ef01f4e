import LakeStore.Proofs.Memory.Operations
import LakeStore.Proofs.Memory.Writers

/-!
A writer can rely on its file while nobody else touches it: whatever else happens to the store in
between, the file holds what was written through it, and each way to ask for the file tells so.
-/

namespace LakeStore.MemoryClient

open Memory StorePath

variable {session : Session MemoryClient} {path : StorePath} {index : Nat} {event : Event}
  {events : List Event} {node : Node} {data : ByteArray} {modified : Option Time}

def chunk? (index : Nat) : Event → Option ByteArray
  | .called (.write other data) => if other = index then some data else none
  | _ => none

/-- All that some events write through a writer, one chunk behind the other. -/
def written (index : Nat) (events : List Event) : ByteArray :=
  (events.filterMap (chunk? index)).foldl (· ++ ·) ByteArray.empty

inductive Marks (path : StorePath) : Event → Prop where
  | marked (text : String) (hpath : ofString text = path) : Marks path (.markedPendingDelete text)

/-- Whether the entry at a path was marked, with no write through a writer since then. -/
def MarkedSince (path : StorePath) (index : Nat) (events : List Event) : Prop :=
  ∃ front event rest, events = front ++ event :: rest ∧ Marks path event ∧
    ∀ later ∈ rest, chunk? index later = none

inductive Disturbs (session : Session MemoryClient) (path : StorePath) (index : Nat) :
    Event → Prop where
  | removed (event : Event) (h : Removes session.client path event) :
    Disturbs session path index event
  | created (text : String) (ifExists : IfExists) (hpath : ofString text = path)
      (hdone : ((StoreClient.createFile text ifExists : ClientM MemoryClient Writer).outcome
        session.client).1.isOk) :
      Disturbs session path index (.called (.createFile text ifExists))
  | uploaded (source text : String) (entries : List LocalEntry) (names : List String)
    (data : ByteArray)
      (hentries : localEntries session.client.disk source = .ok entries)
      (hmem : .file names data ∈ entries)
      (hpath : ofString text ++ names = path) :
      Disturbs session path index (.called (.upload source text))
  | written (other : Nat) (data : ByteArray) (writer : Writer) (hother : other ≠ index)
      (hwriter : session.writers[other]? = some writer) (hpath : writer.path = path) :
      Disturbs session path index (.called (.write other data))

/-- Whether none of some events disturbs a file at the time it happens. -/
def Undisturbed (session : Session MemoryClient) (path : StorePath) (index : Nat)
    (events : List Event) : Prop :=
  ∀ front event rest, events = front ++ event :: rest →
    ¬ Disturbs (front.foldl Event.apply session) path index event

theorem Undisturbed.of_prefix {front : List Event} (h : Undisturbed session path index events)
    (hpre : front <+: events) : Undisturbed session path index front := by
  obtain ⟨rest, rfl⟩ := hpre
  rintro before event between rfl
  exact h before event (between ++ rest) (by simp)

theorem undisturbed_nil : Undisturbed session path index [] := by
  intro front event rest hevents
  simp at hevents

theorem Undisturbed.cons (hevent : ¬ Disturbs session path index event)
    (h : Undisturbed (event.apply session) path index events) :
    Undisturbed session path index (event :: events) := by
  intro front later rest hevents
  cases front with
  | nil =>
    cases hevents
    exact hevent
  | cons first front =>
    cases hevents
    exact h front later rest rfl

theorem written_concat (index : Nat) (events : List Event) (event : Event) :
    written index (events ++ [event]) = written index events ++
      (chunk? index event).getD ByteArray.empty := by
  unfold written
  rw [List.filterMap_append, List.foldl_append]
  cases h : chunk? index event with
  | none => simp [h]
  | some data => simp [h]

theorem markedSince_concat (path : StorePath) (index : Nat) (events : List Event) (event : Event) :
    MarkedSince path index (events ++ [event]) ↔
      Marks path event ∨ MarkedSince path index events ∧ chunk? index event = none := by
  constructor
  . rintro ⟨front, mark, rest, hevents, hmark, hrest⟩
    cases rest using List.reverseRecOn with
    | nil =>
      obtain ⟨_, hlast⟩ := List.append_inj' hevents rfl
      cases hlast
      exact .inl hmark
    | append_singleton rest last =>
      rw [← List.cons_append, ← List.append_assoc] at hevents
      obtain ⟨rfl, hlast⟩ := List.append_inj' hevents rfl
      cases hlast
      refine .inr ⟨⟨front, mark, rest, rfl, hmark, ?_⟩, hrest _ (by simp)⟩
      exact fun later hlater => hrest later (by simp [hlater])
  . rintro (hmark | ⟨⟨front, mark, rest, rfl, hmark, hrest⟩, hchunk⟩)
    . exact ⟨events, event, [], rfl, hmark, by simp⟩
    . refine ⟨front, mark, rest ++ [event], by simp, hmark, ?_⟩
      intro later hlater
      rw [List.mem_append, List.mem_singleton] at hlater
      rcases hlater with hlater | rfl
      . exact hrest later hlater
      . exact hchunk

theorem chunk?_eq_some_iff {chunk : ByteArray} :
    chunk? index event = some chunk ↔ event = .called (.write index chunk) := by
  constructor
  . intro h
    unfold chunk? at h
    split at h
    . split at h
      . next hindex =>
        cases h
        rw [hindex]
      . cases h
    . cases h
  . rintro rfl
    simp [chunk?]

theorem Marks.chunk?_eq_none (h : Marks path event) : chunk? index event = none := by
  cases h
  rfl

theorem createFile_isOk (text : String) (ifExists : IfExists) (client : MemoryClient) :
    ((StoreClient.createFile text ifExists : ClientM MemoryClient Writer).outcome client).1.isOk =
      ((Tree.putFile client.disk.clock (ofString text) ByteArray.empty ifExists).outcome
        client.tree).1.isOk := by
  rw [createFile_outcome, Tree.putFile_outcome]
  cases client.tree.putRefusal? (ofString text) ifExists <;> rfl

theorem get?_apply_of_kept (h : session.client.tree.get? path = some node)
    (hnot : ¬ Disturbs session path index event) (hchunk : chunk? index event = none)
    (hmark : ¬ Marks path event) :
    (event.apply session).client.tree.get? path = some node := by
  cases event with
  | hostChanged disk hdisk => exact h
  | markedPendingDelete text =>
    apply Tree.kept_markPendingDelete h
    rintro rfl
    exact hmark (.marked text rfl)
  | called call =>
    change (session.step call).client.tree.get? path = some node
    rw [tree_step]
    cases call with
    | createFile text ifExists =>
      apply Tree.kept_putFile h
      intro hpath hdone
      exact hnot
        (.created text ifExists hpath (createFile_isOk text ifExists session.client ▸ hdone))
    | delete text =>
      apply Tree.kept_delete h
      intro hpath hdone
      apply hnot
      exact .removed _ (.delete text hpath (congrArg Except.ok hdone))
    | createDirectory text =>
      exact Tree.kept_createDirectory h session.client.disk.clock (ofString text)
    | deleteRecursive text =>
      apply Tree.kept_deleteRecursive h
      intro hpath hdone
      apply hnot
      exact .removed _ (.deleteRecursive text hpath (congrArg Except.ok hdone))
    | upload source text =>
      dsimp only [treeAfterCall]
      split
      . next entries hentries =>
        apply Tree.kept_upload h
        intro names data hmem hpath
        exact hnot (.uploaded source text entries names data hentries hmem hpath)
      . exact h
    | write other data =>
      have hother : other ≠ index := by
        rintro rfl
        simp [chunk?] at hchunk
      dsimp only [treeAfterCall]
      split
      . next writer hwriter =>
        apply Tree.kept_append h
        rintro rfl
        exact hnot (.written other data writer hother hwriter rfl)
      . exact h
    | _ => exact h

theorem get?_apply_write (h : session.client.tree.get? path = some (.file data modified))
    (hwriter : session.writers[index]? = some ⟨path⟩) (chunk : ByteArray) :
    ((Event.called (.write index chunk)).apply session).client.tree.get? path =
      some (.file (data ++ chunk) (some session.client.disk.clock)) := by
  change (session.step (.write index chunk)).client.tree.get? path = _
  rw [tree_step]
  dsimp only [treeAfterCall]
  rw [hwriter]
  dsimp only
  rw [Tree.append_outcome, h]
  dsimp only
  rw [PathMap.get?_insert_self]

theorem get?_apply_mark (h : session.client.tree.get? path = some (.file data modified))
    (hmark : Marks path event) :
    (event.apply session).client.tree.get? path = some (.file data none) := by
  obtain ⟨text, rfl⟩ := hmark
  change ((Tree.markPendingDelete (ofString text)).run session.client.tree).2.get? (ofString text) =
    _
  rw [Tree.markPendingDelete_run, h]
  dsimp only
  rw [PathMap.get?_insert_self]
  rfl

theorem get?_foldl_apply {time : Time}
    (h : session.client.tree.get? path = some (.file ByteArray.empty (some time)))
    (hwriter : session.writers[index]? = some ⟨path⟩)
    (hundisturbed : Undisturbed session path index events) :
    ∃ modified, (events.foldl Event.apply session).client.tree.get? path =
        some (.file (written index events) modified) ∧
      (modified = none ↔ MarkedSince path index events) := by
  -- The last event comes after a run in which the file holds what was written so far.
  induction events using List.reverseRecOn with
  | nil =>
    refine ⟨some time, h, by simp, ?_⟩
    rintro ⟨front, event, rest, hevents, _⟩
    simp at hevents
  | append_singleton events event ih =>
    obtain ⟨modified, hfile, hmodified⟩ := ih (hundisturbed.of_prefix (List.prefix_append _ _))
    have hnot := hundisturbed events event [] rfl
    have hstill := writers_foldl_apply hwriter events
    rw [List.foldl_append, List.foldl_cons, List.foldl_nil, written_concat, markedSince_concat]
    by_cases hmark : Marks path event
    . refine ⟨none, ?_, iff_of_true rfl (.inl hmark)⟩
      rw [get?_apply_mark hfile hmark, hmark.chunk?_eq_none, Option.getD_none,
        ByteArray.append_empty]
    . cases hchunk : chunk? index event with
      | none =>
        refine ⟨modified, ?_, by simpa [hmark] using hmodified⟩
        rw [get?_apply_of_kept hfile hnot hchunk hmark, Option.getD_none, ByteArray.append_empty]
      | some chunk =>
        rw [chunk?_eq_some_iff] at hchunk
        subst hchunk
        exact ⟨_, get?_apply_write hfile hstill chunk, by simp [hmark]⟩

/--
What a store tells about a file that holds some bytes, and was marked as about to be deleted or not.
-/
structure TellsFile (client : MemoryClient) (key : String) (data : ByteArray) (marked : Prop) :
    Prop where
  read : ∀ text, normalize text = key → ∃ reader,
    (StoreClient.openReader text : ClientM MemoryClient Reader).outcome client =
      (.ok reader, client) ∧
      (StoreClient.readAll reader : StateM MemoryClient ByteArray).run client = (data, client)
  entry : ∃ modified, (modified = none ↔ marked) ∧
    (∀ text, normalize text = key →
      (StoreClient.entryAt? text : ClientM MemoryClient (Option Entry)).outcome client =
        (.ok (some ⟨key, .file, modified, data.size⟩), client)) ∧
    ∀ uri, normalize uri.path = key → (FileSystem.status (some uri)).outcome client =
      match modified with
      | some time => (.ok ⟨time, data.size⟩, client)
      | none => (.error (.storeIo "get_file_status" uri.text Refusal.staleEntry.message), client)

theorem tellsFile_of_get? {client : MemoryClient} {text : String} {marked : Prop}
    (h : client.tree.get? (ofString text) = some (.file data modified))
    (hmarked : modified = none ↔ marked) :
    client.TellsFile (normalize text) data marked := by
  have hget : ∀ other, normalize other = normalize text →
      client.tree.get? (ofString other) = some (.file data modified) := by
    intro other hother
    rw [(ofString_eq_iff other text).mpr hother]
    exact h
  have hentry : ∀ other, normalize other = normalize text →
      (StoreClient.entryAt? other : ClientM MemoryClient (Option Entry)).outcome client =
        (.ok (some ⟨normalize text, .file, modified, data.size⟩), client) := by
    intro other hother
    rw [entryAt?_outcome, Tree.entryAt?, hget other hother, ← hother]
    rfl
  refine ⟨?_, modified, hmarked, hentry, ?_⟩
  . intro other hother
    refine ⟨⟨data⟩, ?_, ?_⟩
    . rw [openReader_outcome, hget other hother]
    . unfold StoreClient.readAll
      rw [Step.run_bind_pure, read_run]
  . intro uri huri
    rw [FileSystem.status_of_ok (hentry uri.path huri)]
    cases modified <;> rfl

/--
From when a file is created until an event disturbs it, each write through its writer succeeds, and
at each point every spelling of its path leads to exactly the bytes that were written so far. The
store tells that it is a file of that size, with a time of modification unless it was marked as
about to be deleted since the last write.
-/
theorem read_your_writes (account : String) (host : Disk) (before : List Event) (text : String)
    (ifExists : IfExists) (between : List Event)
    (hcreated : ((StoreClient.createFile text ifExists : ClientM MemoryClient Writer).outcome
      (after account host before).client).1.isOk)
    (hundisturbed : Undisturbed
      (after account host (before ++ [.called (.createFile text ifExists)])) (ofString text)
        (after account host before).writers.length between) :
    ∀ front, front <+: between →
      let index := (after account host before).writers.length
      let session := front.foldl Event.apply
        (after account host (before ++ [.called (.createFile text ifExists)]))
      session.writers[index]? = some ⟨ofString text⟩ ∧
      (∀ chunk,
        ((StoreClient.write ⟨ofString text⟩ chunk : Step MemoryClient StreamError Writer).outcome
          session.client).1 = .ok ⟨ofString text⟩) ∧
      session.client.TellsFile (normalize text) (written index front)
        (MarkedSince (ofString text) index front) := by
  intro front hfront index session
  have hsession : after account host (before ++ [.called (.createFile text ifExists)]) =
      (after account host before).createFile text ifExists := by
    rw [after_append]
    rfl
  have hwriter := writers_createFile hcreated
  have hfile : ∃ time,
      ((after account host before).createFile text ifExists).client.tree.get? (ofString text) =
        some (.file ByteArray.empty (some time)) := by
    rw [createFile_outcome] at hcreated
    rw [Session.client_createFile, createFile_outcome]
    split at hcreated
    . cases hcreated
    . exact ⟨_, PathMap.get?_insert_self _ _ _⟩
  obtain ⟨time, hfile⟩ := hfile
  rw [← hsession] at hwriter hfile
  obtain ⟨modified, hnow, hmodified⟩ :=
    get?_foldl_apply hfile hwriter (hundisturbed.of_prefix hfront)
  refine ⟨writers_foldl_apply hwriter front, ?_, tellsFile_of_get? hnow hmodified⟩
  intro chunk
  rw [write_outcome, hnow]

theorem read_your_writes_in_company :
    let created :=
      after "acct" (.empty default) ([.called (.createFile "c" .fail)] ++
        [.called (.createFile "a/./b" .fail)])
    let between := [.called (.write 1 (ByteArray.mk #[1])), .called (.createFile "/a/b" .fail),
      .called (.delete "a"),
      .called (.write 0 (ByteArray.mk #[7])), .markedPendingDelete "a//b",
      .called (.write 1 (ByteArray.mk #[2]))]
    let client := (between.foldl Event.apply created).client
    Undisturbed created ["a", "b"] 1 between ∧
      (∃ reader, (StoreClient.openReader "x/../a/b" : ClientM MemoryClient Reader).outcome client =
          (.ok reader, client) ∧
        (StoreClient.readAll reader : StateM MemoryClient ByteArray).run client =
          (ByteArray.mk #[1, 2], client)) ∧
      ∃ time, (FileSystem.status (some (.ofPath "acct" "a/b"))).outcome client =
        (.ok ⟨time, 2⟩, client) := by
  intro created between client
  have hcreated : ((StoreClient.createFile "a/./b" .fail : ClientM MemoryClient Writer).outcome
      (after "acct" (.empty default) [.called (.createFile "c" .fail)]).client).1.isOk := by decide
  have hundisturbed : Undisturbed created ["a", "b"] 1 between := by
    refine .cons ?_ (.cons ?_ (.cons ?_ (.cons ?_ (.cons ?_ (.cons ?_ undisturbed_nil)))))
    . rintro (⟨_, ⟨⟩⟩ | _ | _ | ⟨_, _, _, hother⟩)
      exact hother rfl
    . rintro (⟨_, ⟨⟩⟩ | ⟨_, _, _, hdone⟩)
      exact absurd hdone (by decide)
    . rintro ⟨_, _, hpath, _⟩
      exact absurd hpath (by decide)
    . rintro (⟨_, ⟨⟩⟩ | _ | _ | ⟨_, _, writer, _, hwriter, hpath⟩)
      cases hwriter
      exact absurd hpath (by decide)
    . rintro ⟨_, ⟨⟩⟩
    . rintro (⟨_, ⟨⟩⟩ | _ | _ | ⟨_, _, _, hother⟩)
      exact hother rfl
  obtain ⟨_, _, hread, modified, hmodified, _, hstatus⟩ :=
    read_your_writes "acct" (.empty default) _ "a/./b" .fail between hcreated hundisturbed between
    List.prefix_rfl
  have hnot : ¬ MarkedSince ["a", "b"] 1 between := by
    intro hmarked
    change MarkedSince ["a", "b"] 1
      (between.dropLast ++ [.called (.write 1 (ByteArray.mk #[2]))]) at hmarked
    rw [markedSince_concat] at hmarked
    rcases hmarked with hmark | ⟨_, hchunk⟩
    . cases hmark
    . cases hchunk
  refine ⟨hundisturbed, hread "x/../a/b" (by decide), ?_⟩
  have htold := hstatus (.ofPath "acct" "a/b") (by decide)
  cases modified with
  | none => exact absurd (hmodified.mp rfl) hnot
  | some time => exact ⟨time, htold⟩

end LakeStore.MemoryClient
