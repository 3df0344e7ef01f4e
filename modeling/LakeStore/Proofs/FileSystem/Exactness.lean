import LakeStore.Proofs.FileSystem.Recorded

/-!
What the operations of the file system do with a client, whatever the client answers. An operation
has a fixed list of calls. It makes them in that order as long as they are answered well, and the
last answer decides on what it gives.
-/

namespace LakeStore

inductive FsOperation where
  | probe (uri : RemoteUri)
  | openFile (uri : RemoteUri)
  | create (uri : RemoteUri)
  | delete (uri : RemoteUri)
  | exists? (uri : RemoteUri)
  | copy (source target : RemoteUri)
  | copyToLocal (uri : RemoteUri) (target : String)
  | copyFromLocal (source : String) (uri : RemoteUri)
  | createDirectory (uri : RemoteUri)
  | deleteDirectory (uri : RemoteUri)
  | children (uri : RemoteUri)
  | uriOfPath (path? : Option String)
  | status (uri? : Option RemoteUri)

inductive FsResult (ρ ω : Type) where
  | done
  | probe (probe : Probe)
  | reader (reader : ρ)
  | writer (writer : ω)
  | found (found : Bool)
  | children (children : Children)
  | uri (uri : RemoteUri)
  | status (status : FileStatus)

def noDirectory? : Option Entry → Option Refusal
  | none => some .noDirectory
  | some entry =>
    match entry.modified, entry.type with
    | none, _ => some .noDirectory
    | some _, .file => some .notDirectory
    | some _, .directory => none

def noStatus? : Option Entry → Option Refusal
  | none => some .noEntry
  | some entry =>
    match entry.modified with
    | none => some .staleEntry
    | some _ => none

theorem exists_directory {found? : Option Entry} (h : noDirectory? found? = none) :
    ∃ entry, found? = some entry ∧ entry.modified ≠ none ∧ entry.type = .directory := by
  cases found? with
  | none => cases h
  | some entry =>
    refine ⟨entry, rfl, ?_⟩
    unfold noDirectory? at h
    dsimp only at h
    split at h
    . cases h
    . cases h
    . next modified hmodified htype =>
      rw [hmodified]
      exact ⟨Option.some_ne_none modified, htype⟩

namespace FsOperation

variable {σ : Type} [StoreClient σ] {ρ ω : Type}

def run : FsOperation → FsM σ (FsResult (StoreClient.Reader σ) (StoreClient.Writer σ))
  | probe uri => return .probe (← FileSystem.probe uri)
  | openFile uri => return .reader (← FileSystem.openFile uri)
  | create uri => return .writer (← FileSystem.create uri)
  | delete uri => do
    FileSystem.delete uri
    return .done
  | exists? uri => return .found (← FileSystem.exists? uri)
  | copy source target => do
    FileSystem.copy source target
    return .done
  | copyToLocal uri target => do
    FileSystem.copyToLocal uri target
    return .done
  | copyFromLocal source uri => do
    FileSystem.copyFromLocal source uri
    return .done
  | createDirectory uri => do
    FileSystem.createDirectory uri
    return .done
  | deleteDirectory uri => do
    FileSystem.deleteDirectory uri
    return .done
  | children uri => return .children (← FileSystem.children uri)
  | uriOfPath path? => return .uri (← FileSystem.uriOfPath path?)
  | status uri? => return .status (← FileSystem.status uri?)

def calls : FsOperation → List ClientCall
  | probe uri => [.entryAt? uri.path]
  | openFile uri => [.openReader uri.path]
  | create uri => [.createFile uri.path .overwrite]
  | delete uri => [.delete uri.path]
  | exists? uri => [.exists? uri.path]
  | copy .. => []
  | copyToLocal uri target => [.download uri.path target]
  | copyFromLocal source uri => [.upload source uri.path]
  | createDirectory uri => [.createDirectory uri.path]
  | deleteDirectory uri => [.entryAt? uri.path, .deleteRecursive uri.path]
  | children uri => [.entryAt? uri.path, .list uri.path]
  | uriOfPath _ => []
  | status none => []
  | status (some uri) => [.entryAt? uri.path]

def turnedDown? : FsOperation → Option FsError
  | copy .. => some (.unsupported "remote-to-remote copy")
  | uriOfPath none => some (.invalidArgument "Specified path is null")
  | status none => some (.invalidArgument "Specified uri is null")
  | _ => none

def refusal? (operation : FsOperation) : Exchange ρ ω → Option Refusal
  | ⟨.delete _, .ok false⟩ => some .notDeleted
  | ⟨.createDirectory _, .ok false⟩ => some .directoryNotCreated
  | ⟨.deleteRecursive _, .ok false⟩ => some .directoryNotDeleted
  | ⟨.upload _ _, .ok transfer⟩ =>
    if transfer.failed = [] then none else some (.incompleteTransfer transfer.failed.length)
  | ⟨.download _ _, .ok transfer⟩ =>
    if transfer.failed = [] then none else some (.incompleteTransfer transfer.failed.length)
  | ⟨.entryAt? _, .ok found?⟩ =>
    match operation with
    | deleteDirectory _ => noDirectory? found?
    | children _ => noDirectory? found?
    | status _ => noStatus? found?
    | _ => none
  | _ => none

def reportedAs? : FsOperation → Option (String × RemoteUri)
  | delete uri => some ("delete", uri)
  | copyToLocal uri _ => some ("copy_to_local", uri)
  | copyFromLocal _ uri => some ("copy_from_local", uri)
  | createDirectory uri => some ("create_directory", uri)
  | deleteDirectory uri => some ("delete_directory", uri)
  | children uri => some ("get_children", uri)
  | status (some uri) => some ("get_file_status", uri)
  | _ => none

def gives? (account : String) (operation : FsOperation) :
    Option (Exchange ρ ω) → Option (FsResult ρ ω)
  | some ⟨.exists? _, .ok found⟩ => some (.found found)
  | some ⟨.openReader _, .ok reader⟩ => some (.reader reader)
  | some ⟨.createFile _ _, .ok writer⟩ => some (.writer writer)
  | some ⟨.list _, .ok entries⟩ => some (.children ⟨account, entries⟩)
  | some ⟨.entryAt? _, .ok found?⟩ =>
    match operation, found? with
    | probe _, _ => some (.probe (.ofEntry found?))
    | status _, some entry => entry.modified.map fun modified => .status ⟨modified, entry.length⟩
    | _, _ => none
  | some ⟨_, .ok _⟩ => some .done
  | some ⟨_, .error _⟩ => none
  | none =>
    match operation with
    | uriOfPath (some path) => some (.uri (.ofPath account path))
    | _ => none

def Accepts (operation : FsOperation) (exchange : Exchange ρ ω) : Prop :=
  exchange.error? = none ∧ operation.refusal? exchange = none

/-- What an operation has to keep to, from what it answered and the record of its calls. -/
structure Exact (account : String) (operation : FsOperation)
    (result : Except FsError (FsResult ρ ω)) (trace : List (Exchange ρ ω)) : Prop where
  inOrder : trace.map (·.call) <+: operation.calls
  stops : ∀ exchange ∈ trace.dropLast, operation.Accepts exchange
  goesOn : (∀ exchange ∈ trace, operation.Accepts exchange) → trace.map (·.call) = operation.calls
  guarded : ∀ exchange ∈ trace, ∀ path, exchange.call.directory? = some path → ∃ entry,
    trace = [⟨.entryAt? path, .ok (some entry)⟩, exchange] ∧
      entry.modified ≠ none ∧ entry.type = .directory
  turnedDown : ∀ error, operation.turnedDown? = some error → trace = [] ∧ result = .error error
  ok_iff : operation.turnedDown? = none →
    (result.isOk ↔ ∀ exchange ∈ trace, operation.Accepts exchange)
  given : ∀ value, result = .ok value → operation.gives? account trace.getLast? = some value
  refused : ∀ exchange ∈ trace, ∀ refusal, operation.refusal? exchange = some refusal →
    ∃ op uri, operation.reportedAs? = some (op, uri) ∧
      result = .error (.storeIo op uri.text refusal.message)
  passesOn : ∀ exchange ∈ trace, ∀ error, exchange.error? = some error →
    result = .error (.client error)

theorem calls_of_turnedDown {operation : FsOperation} {error : FsError}
    (h : operation.turnedDown? = some error) : operation.calls = [] := by
  cases operation with
  | copy source target => rfl
  | uriOfPath path? => rfl
  | status uri? =>
    cases uri? with
    | none => rfl
    | some uri => cases h
  | _ => cases h

theorem calls_of_directory {operation : FsOperation} {call : ClientCall} {path : String}
    (hcall : call ∈ operation.calls) (hdirectory : call.directory? = some path) :
    operation.calls = [.entryAt? path, call] ∧
      ∃ uri, operation = deleteDirectory uri ∨ operation = children uri := by
  have hone {other : ClientCall} (hother : other.directory? = none) : call ∉ [other] := by
    intro hmem
    rw [List.mem_singleton] at hmem
    rw [hmem, hother] at hdirectory
    cases hdirectory
  have hsecond {look other : ClientCall} (hlook : look.directory? = none)
      (hmem : call ∈ [look, other]) : call = other := by
    rcases List.mem_cons.mp hmem with rfl | hlast
    . rw [hlook] at hdirectory
      cases hdirectory
    . exact List.mem_singleton.mp hlast
  cases operation with
  | deleteDirectory uri =>
    obtain rfl := hsecond rfl hcall
    cases hdirectory
    exact ⟨rfl, uri, .inl rfl⟩
  | children uri =>
    obtain rfl := hsecond rfl hcall
    cases hdirectory
    exact ⟨rfl, uri, .inr rfl⟩
  | copy source target => cases hcall
  | uriOfPath path? => cases hcall
  | status uri? =>
    cases uri? with
    | none => cases hcall
    | some uri => exact absurd hcall (hone rfl)
  | _ => exact absurd hcall (hone rfl)

section

variable {operation : FsOperation} {account : String} {result : Except FsError (FsResult ρ ω)}
  {exchange : Exchange ρ ω}

theorem not_accepts_of_error {error : ClientError} (h : exchange.error? = some error) :
    ¬ operation.Accepts exchange := by
  rintro ⟨hnone, _⟩
  rw [hnone] at h
  cases h

theorem not_accepts_of_refusal {refusal : Refusal}
    (h : operation.refusal? exchange = some refusal) :
    ¬ operation.Accepts exchange := by
  rintro ⟨_, hnone⟩
  rw [hnone] at h
  cases h

theorem guarded_of_inOrder {trace : List (Exchange ρ ω)}
    (horder : trace.map (·.call) <+: operation.calls)
    (hstops : ∀ exchange ∈ trace.dropLast, operation.Accepts exchange) (hmem : exchange ∈ trace)
    {path : String} (hdirectory : exchange.call.directory? = some path) : ∃ entry,
      trace = [⟨.entryAt? path, .ok (some entry)⟩, exchange] ∧
        entry.modified ≠ none ∧ entry.type = .directory := by
  obtain ⟨hcalls, uri, hoperation⟩ :=
    calls_of_directory (horder.subset (List.mem_map_of_mem hmem)) hdirectory
  rw [hcalls] at horder
  -- The order leaves room for a look and the call itself, and a look is not for a whole directory.
  rcases trace with _ | ⟨⟨call, answer⟩, _ | ⟨other, rest⟩⟩
  . cases hmem
  . rw [List.map_cons, List.cons_prefix_cons] at horder
    rw [List.mem_singleton] at hmem
    rw [hmem, horder.1] at hdirectory
    cases hdirectory
  . simp only [List.map_cons, List.cons_prefix_cons, List.prefix_nil, List.map_eq_nil_iff] at horder
    obtain ⟨rfl, -, rfl⟩ := horder
    have hlooked : exchange ≠ ⟨.entryAt? path, answer⟩ := by
      rintro rfl
      cases hdirectory
    obtain rfl := List.mem_singleton.mp (List.mem_of_ne_of_mem hlooked hmem)
    obtain ⟨herror, hrefusal⟩ := hstops ⟨.entryAt? path, answer⟩ (.head _)
    cases answer with
    | error error => cases herror
    | ok found? =>
      have hlive : noDirectory? found? = none := by
        rcases hoperation with rfl | rfl
        all_goals exact hrefusal
      obtain ⟨entry, rfl, hmodified, htype⟩ := exists_directory hlive
      exact ⟨entry, rfl, hmodified, htype⟩

structure Decides (account : String) (operation : FsOperation)
    (result : Except FsError (FsResult ρ ω)) (exchange : Exchange ρ ω) : Prop where
  given : operation.Accepts exchange →
    ∃ value, result = .ok value ∧ operation.gives? account (some exchange) = some value
  refused : ∀ refusal, operation.refusal? exchange = some refusal →
    ∃ op uri, operation.reportedAs? = some (op, uri) ∧
      result = .error (.storeIo op uri.text refusal.message)
  passesOn : ∀ error, exchange.error? = some error → result = .error (.client error)

theorem Decides.accepts_of_isOk (h : operation.Decides account result exchange)
    (hok : result.isOk) : operation.Accepts exchange := by
  constructor
  . cases herror : exchange.error? with
    | none => rfl
    | some error =>
      rw [h.passesOn error herror] at hok
      cases hok
  . cases hrefusal : operation.refusal? exchange with
    | none => rfl
    | some refusal =>
      obtain ⟨op, uri, _, hresult⟩ := h.refused refusal hrefusal
      rw [hresult] at hok
      cases hok

theorem Decides.of_error {error : ClientError} (h : exchange.error? = some error) :
    operation.Decides account (.error (.client error) : Except FsError (FsResult ρ ω))
      exchange := by
  constructor
  . exact fun haccepts => absurd haccepts (not_accepts_of_error h)
  . intro refusal hrefusal
    rcases exchange with ⟨call, value | failure⟩
    . cases call <;> cases hrefusal
    . cases h
  . intro other hother
    rw [h, Option.some_inj] at hother
    rw [hother]

theorem Decides.of_refusal {refusal : Refusal} {op : String} {uri : RemoteUri}
    (hanswer : exchange.error? = none) (h : operation.refusal? exchange = some refusal)
    (hreported : operation.reportedAs? = some (op, uri)) :
    operation.Decides account
      (.error (.storeIo op uri.text refusal.message) : Except FsError (FsResult ρ ω)) exchange := by
  constructor
  . exact fun haccepts => absurd haccepts (not_accepts_of_refusal h)
  . intro other hother
    rw [h, Option.some_inj] at hother
    rw [← hother]
    exact ⟨op, uri, hreported, rfl⟩
  . intro error herror
    rw [hanswer] at herror
    cases herror

theorem Decides.exact (h : operation.Decides account result exchange)
    (earlier : List (Exchange ρ ω)) (hearlier : ∀ exchange ∈ earlier, operation.Accepts exchange)
    (horder : (earlier ++ [exchange]).map (·.call) <+: operation.calls)
    (hgoesOn : operation.Accepts exchange →
      (earlier ++ [exchange]).map (·.call) = operation.calls) :
    operation.Exact account result (earlier ++ [exchange]) := by
  have hlast : ∀ other ∈ earlier ++ [exchange], ¬ operation.Accepts other → other = exchange := by
    intro other hmem hnot
    rcases List.mem_append.mp hmem with hmem | hmem
    . exact absurd (hearlier other hmem) hnot
    . exact List.mem_singleton.mp hmem
  have hstops : ∀ other ∈ (earlier ++ [exchange]).dropLast, operation.Accepts other := by
    rw [List.dropLast_concat]
    exact hearlier
  constructor
  . exact horder
  . exact hstops
  . exact fun haccepts => hgoesOn (haccepts exchange (by simp))
  . exact fun other hmem path hdirectory => guarded_of_inOrder horder hstops hmem hdirectory
  . intro error hdown
    rw [calls_of_turnedDown hdown, List.prefix_nil] at horder
    simp at horder
  . intro _
    constructor
    . intro hok other hmem
      rcases List.mem_append.mp hmem with hmem | hmem
      . exact hearlier other hmem
      . rw [List.mem_singleton.mp hmem]
        exact h.accepts_of_isOk hok
    . intro haccepts
      obtain ⟨value, hvalue, _⟩ := h.given (haccepts exchange (by simp))
      rw [hvalue]
      rfl
  . intro value hvalue
    rw [List.getLast?_concat]
    obtain ⟨other, hother, hgives⟩ := h.given (h.accepts_of_isOk (by rw [hvalue]; rfl))
    rw [hvalue, Except.ok.injEq] at hother
    rw [hgives, hother]
  . intro other hmem refusal hrefusal
    obtain rfl := hlast other hmem (not_accepts_of_refusal hrefusal)
    exact h.refused refusal hrefusal
  . intro other hmem error herror
    obtain rfl := hlast other hmem (not_accepts_of_error herror)
    exact h.passesOn error herror

theorem Decides.exact_first (h : operation.Decides account result exchange)
    (hnot : ¬ operation.Accepts exchange) (hfirst : [exchange.call] <+: operation.calls) :
    operation.Exact account result [exchange] :=
  h.exact [] (by simp) hfirst fun haccepts => absurd haccepts hnot

theorem Exact.of_no_call (hcalls : operation.calls = [])
    (hdown : ∀ error, operation.turnedDown? = some error → result = .error error)
    (hoffered : operation.turnedDown? = none → ∃ value, result = .ok value ∧
      operation.gives? account (none : Option (Exchange ρ ω)) = some value) :
    operation.Exact account result ([] : List (Exchange ρ ω)) := by
  constructor
  . exact List.nil_prefix
  . simp
  . exact fun _ => hcalls.symm
  . simp
  . exact fun error h => ⟨rfl, hdown error h⟩
  . intro h
    obtain ⟨value, hvalue, _⟩ := hoffered h
    rw [hvalue]
    exact iff_of_true rfl (by simp)
  . intro value hvalue
    cases hturned : operation.turnedDown? with
    | some error =>
      rw [hdown error hturned] at hvalue
      cases hvalue
    | none =>
      obtain ⟨other, hother, hgives⟩ := hoffered hturned
      rw [hvalue, Except.ok.injEq] at hother
      rw [hother]
      exact hgives
  . simp
  . simp

end

def recordedRun (client : σ) (operation : FsOperation) :
    Except FsError (FsResult (StoreClient.Reader σ) (StoreClient.Writer σ)) × Recorded σ :=
  operation.run.outcome (Recorded.mk client [])

/-- Whether an operation does the same when its calls are put on record, and keeps to the rules. -/
structure ExactOver (client : σ) (operation : FsOperation) : Prop where
  unseen : operation.run.outcome client =
    ((operation.recordedRun client).1, (operation.recordedRun client).2.client)
  answered : Answers client (operation.recordedRun client).2.trace
    (operation.recordedRun client).2.client
  exact : operation.Exact (StoreClient.account (operation.recordedRun client).2.client)
    (operation.recordedRun client).1 (operation.recordedRun client).2.trace

def conclude {τ β : Type} [StoreClient τ] (judge : String → Except FsError β) : FsM τ β := do
  Step.ofExcept (judge (StoreClient.account (← get)))

def unlessRefused {τ β : Type} [StoreClient τ] (op : String) (uri : RemoteUri) (next : FsM τ β) :
    Option Refusal → FsM τ β
  | none => next
  | some refusal => conclude fun _ => .error (.storeIo op uri.text refusal.message)

theorem makes_conclude {β : Type} (judge : String → Except FsError β) (client : σ) :
    Recorded.Makes (conclude judge) (conclude judge) client (judge (StoreClient.account client))
      client [] := by
  constructor
  . rfl
  . intro trace
    rw [List.append_nil]
    rfl
  . exact .nil client

section

variable {client last : σ} {operation : FsOperation}

theorem Exact.over
    {result : Except FsError (FsResult (StoreClient.Reader σ) (StoreClient.Writer σ))}
    {trace : List (ExchangeWith σ)}
    (h : operation.Exact (StoreClient.account last) result trace)
    (hmakes : Recorded.Makes operation.run operation.run client result last trace) :
    operation.ExactOver client := by
  have hrun : operation.recordedRun client = (result, ⟨last, trace⟩) := hmakes.recorded []
  constructor
  . rw [hrun]
    exact hmakes.plain
  . rw [hrun]
    exact hmakes.answered
  . rw [hrun]
    exact h

theorem ExactOver.of_no_call
    {judge : String → Except FsError (FsResult (StoreClient.Reader σ) (StoreClient.Writer σ))}
    (hrun : (operation.run : FsM σ _) = conclude judge)
    (hrecorded : (operation.run : FsM (Recorded σ) _) = conclude judge)
    (h : operation.Exact (StoreClient.account client) (judge (StoreClient.account client)) []) :
    operation.ExactOver client := by
  apply h.over
  rw [hrun, hrecorded]
  exact makes_conclude judge client

structure Settles (operation : FsOperation) (call : ClientCall)
    (judge : call.Answer ρ ω → String → Except FsError (FsResult ρ ω)) : Prop where
  given : ∀ answer account, operation.refusal? ⟨call, .ok answer⟩ = none → ∃ value,
    judge answer account = .ok value ∧
      operation.gives? account (some ⟨call, .ok answer⟩) = some value
  refused : ∀ answer account refusal, operation.refusal? ⟨call, .ok answer⟩ = some refusal →
    ∃ op uri, operation.reportedAs? = some (op, uri) ∧
      judge answer account = .error (.storeIo op uri.text refusal.message)

theorem Settles.decides {call : ClientCall}
    {judge : call.Answer ρ ω → String → Except FsError (FsResult ρ ω)}
    (h : operation.Settles call judge) (answer : call.Answer ρ ω) (account : String) :
    operation.Decides account (judge answer account) ⟨call, .ok answer⟩ := by
  constructor
  . exact fun haccepts => h.given answer account haccepts.2
  . exact fun refusal hrefusal => h.refused answer account refusal hrefusal
  . intro error herror
    cases herror

section

variable {call : ClientCall} {judge : call.AnswerOf σ →
  String → Except FsError (FsResult (StoreClient.Reader σ) (StoreClient.Writer σ))}

theorem Settles.makes (h : operation.Settles call judge)
    (earlier : List (ExchangeWith σ))
    (hearlier : ∀ exchange ∈ earlier, operation.Accepts exchange)
    (hcalls : operation.calls = earlier.map (·.call) ++ [call]) (client : σ) :
    ∃ result last exchange,
      Recorded.Makes (FileSystem.call call.make >>= fun answer => conclude (judge answer))
        (FileSystem.call (Recorded.record call) >>= fun answer => conclude (judge answer)) client
        result last [exchange] ∧
      operation.Exact (StoreClient.account last) result (earlier ++ [exchange]) := by
  have horder (answer : Except ClientError (call.AnswerOf σ)) :
      (earlier ++ [(⟨call, answer⟩ : ExchangeWith σ)]).map (·.call) = operation.calls := by
    rw [List.map_append, hcalls]
    rfl
  rcases houtcome : call.make.outcome client with ⟨answer, changed⟩
  cases answer with
  | ok answer =>
    have hdecides := h.decides answer (StoreClient.account changed)
    have hmakes := makes_conclude (judge answer) changed
    refine ⟨_, changed, _, .call_ok houtcome hmakes, ?_⟩
    exact hdecides.exact earlier hearlier (horder _ ▸ List.prefix_rfl) fun _ => horder _
  | error error =>
    have hfailed : (⟨call, .error error⟩ : ExchangeWith σ).error? = some error := rfl
    refine ⟨_, changed, _, .call_error houtcome _ _, ?_⟩
    exact (Decides.of_error hfailed).exact earlier hearlier (horder _ ▸ List.prefix_rfl)
      fun _ => horder _

theorem ExactOver.of_call (call : ClientCall)
    {judge : call.AnswerOf σ → String →
      Except FsError (FsResult (StoreClient.Reader σ) (StoreClient.Writer σ))}
    (hrun : (operation.run : FsM σ _) =
      FileSystem.call call.make >>= fun answer => conclude (judge answer))
    (hrecorded : (operation.run : FsM (Recorded σ) _) =
      FileSystem.call (Recorded.record call) >>= fun answer => conclude (judge answer))
    (hcalls : operation.calls = [call]) (h : operation.Settles call judge) :
    operation.ExactOver client := by
  obtain ⟨result, last, exchange, hmakes, hexact⟩ := h.makes [] (by simp) hcalls client
  rw [← hrun, ← hrecorded] at hmakes
  exact hexact.over hmakes

theorem ExactOver.of_guarded_call (call : ClientCall)
    {judge : call.AnswerOf σ → String →
      Except FsError (FsResult (StoreClient.Reader σ) (StoreClient.Writer σ))}
    {op : String} {uri : RemoteUri}
    (hrun : (operation.run : FsM σ _) =
      FileSystem.call (StoreClient.entryAt? uri.path) >>= fun found? =>
        unlessRefused op uri (FileSystem.call call.make >>= fun answer => conclude (judge answer))
          (noDirectory? found?))
    (hrecorded : (operation.run : FsM (Recorded σ) _) =
      FileSystem.call (StoreClient.entryAt? uri.path) >>= fun found? =>
        unlessRefused op uri
          (FileSystem.call (Recorded.record call) >>= fun answer => conclude (judge answer))
          (noDirectory? found?))
    (hcalls : operation.calls = [.entryAt? uri.path, call])
    (hlook : ∀ found?, operation.refusal? (⟨.entryAt? uri.path, .ok found?⟩ :
      ExchangeWith σ) = noDirectory? found?)
    (hreported : operation.reportedAs? = some (op, uri)) (h : operation.Settles call judge) :
    operation.ExactOver client := by
  have hfirst : [ClientCall.entryAt? uri.path] <+: operation.calls := by
    rw [hcalls]
    exact List.prefix_append [_] [call]
  rcases hentry : (ClientCall.entryAt? uri.path).make.outcome client with ⟨answer, looked⟩
  cases answer with
  | error error =>
    have hfailed :
      (⟨.entryAt? uri.path, .error error⟩ : ExchangeWith σ).error? = some error := rfl
    apply ((Decides.of_error hfailed).exact_first (not_accepts_of_error hfailed) hfirst).over
    rw [hrun, hrecorded]
    exact Recorded.Makes.call_error hentry _ _
  | ok found? =>
    cases hdirectory : noDirectory? found? with
    | some refusal =>
      have hrefusal := (hlook found?).trans hdirectory
      apply ((Decides.of_refusal rfl hrefusal hreported).exact_first
        (not_accepts_of_refusal hrefusal) hfirst).over
      rw [hrun, hrecorded]
      apply Recorded.Makes.call_ok hentry
      rw [hdirectory]
      exact makes_conclude (fun _ => .error (.storeIo op uri.text refusal.message)) looked
    | none =>
      have hlooked : ∀ exchange ∈ [(⟨.entryAt? uri.path, .ok found?⟩ : ExchangeWith σ)],
          operation.Accepts exchange := by
        intro exchange hmem
        rw [List.mem_singleton.mp hmem]
        exact ⟨rfl, (hlook found?).trans hdirectory⟩
      obtain ⟨result, last, exchange, hmakes, hexact⟩ := h.makes _ hlooked hcalls looked
      apply hexact.over
      rw [hrun, hrecorded]
      apply Recorded.Makes.call_ok hentry
      rw [hdirectory]
      exact hmakes

end

end

def doneIf (op : String) (uri : RemoteUri) (refusal : Refusal) (accepted : Bool) :
    Except FsError (FsResult ρ ω) :=
  if accepted then .ok .done else .error (.storeIo op uri.text refusal.message)

section run

variable {τ β : Type} [StoreClient τ]

theorem requireDirectory_bind (op : String) (uri : RemoteUri) (next : FsM τ β) :
    (FileSystem.requireDirectory op uri >>= fun _ => next) =
      FileSystem.call (StoreClient.entryAt? uri.path) >>= fun found? =>
        unlessRefused op uri next (noDirectory? found?) := by
  unfold FileSystem.requireDirectory FileSystem.probe
  simp only [bind_assoc, pure_bind]
  apply bind_congr
  intro found?
  cases found? with
  | none => rfl
  | some entry =>
    rcases entry with ⟨fullName, type, modified, length⟩
    cases modified with
    | none => rfl
    | some modified => cases type <;> rfl

theorem unless_refuse (op : String) (uri : RemoteUri) (refusal : Refusal) (accepted : Bool) :
    ((unless accepted do FileSystem.refuse op uri refusal) >>= fun _ => pure .done :
      FsM τ (FsResult ρ ω)) = conclude fun _ => doneIf op uri refusal accepted := by
  cases accepted <;> rfl

theorem run_probe (uri : RemoteUri) : ((probe uri).run : FsM τ _) =
    FileSystem.call (StoreClient.entryAt? uri.path) >>= fun found? =>
      conclude fun _ => .ok (.probe (.ofEntry found?)) := by
  unfold run FileSystem.probe
  dsimp only
  rw [bind_assoc]
  rfl

theorem run_delete (uri : RemoteUri) : ((delete uri).run : FsM τ _) =
    FileSystem.call (StoreClient.delete uri.path) >>= fun deleted =>
      conclude fun _ => doneIf "delete" uri .notDeleted deleted := by
  unfold run FileSystem.delete
  dsimp only
  rw [bind_assoc]
  exact bind_congr fun deleted => unless_refuse ..

theorem run_createDirectory (uri : RemoteUri) : ((createDirectory uri).run : FsM τ _) =
    FileSystem.call (StoreClient.createDirectory uri.path) >>= fun made =>
      conclude fun _ => doneIf "create_directory" uri .directoryNotCreated made := by
  unfold run FileSystem.createDirectory
  dsimp only
  rw [bind_assoc]
  exact bind_congr fun made => unless_refuse ..

theorem run_copyToLocal (uri : RemoteUri) (target : String) :
    ((copyToLocal uri target).run : FsM τ _) =
      FileSystem.call (StoreClient.download uri.path target) >>= fun transfer =>
        conclude fun _ => doneIf "copy_to_local" uri (.incompleteTransfer transfer.failed.length)
          transfer.isComplete := by
  unfold run FileSystem.copyToLocal
  dsimp only
  rw [bind_assoc]
  exact bind_congr fun transfer => unless_refuse ..

theorem run_copyFromLocal (source : String) (uri : RemoteUri) :
    ((copyFromLocal source uri).run : FsM τ _) =
      FileSystem.call (StoreClient.upload source uri.path) >>= fun transfer =>
        conclude fun _ => doneIf "copy_from_local" uri (.incompleteTransfer transfer.failed.length)
          transfer.isComplete := by
  unfold run FileSystem.copyFromLocal
  dsimp only
  rw [bind_assoc]
  exact bind_congr fun transfer => unless_refuse ..

theorem run_deleteDirectory (uri : RemoteUri) : ((deleteDirectory uri).run : FsM τ _) =
    FileSystem.call (StoreClient.entryAt? uri.path) >>= fun found? =>
      unlessRefused "delete_directory" uri
        (FileSystem.call (StoreClient.deleteRecursive uri.path) >>= fun deleted =>
          conclude fun _ => doneIf "delete_directory" uri .directoryNotDeleted deleted)
        (noDirectory? found?) := by
  unfold run FileSystem.deleteDirectory
  dsimp only
  rw [bind_assoc]
  refine (requireDirectory_bind "delete_directory" uri _).trans (bind_congr fun found? => ?_)
  cases noDirectory? found? with
  | none =>
    unfold unlessRefused
    dsimp only
    rw [bind_assoc]
    exact bind_congr fun deleted => unless_refuse ..
  | some refusal => rfl

theorem run_children (uri : RemoteUri) : ((children uri).run : FsM τ _) =
    FileSystem.call (StoreClient.entryAt? uri.path) >>= fun found? =>
      unlessRefused "get_children" uri
        (FileSystem.call (StoreClient.list uri.path) >>= fun entries =>
          conclude fun account => .ok (.children ⟨account, entries⟩))
        (noDirectory? found?) := by
  unfold run FileSystem.children
  dsimp only
  rw [bind_assoc]
  refine (requireDirectory_bind "get_children" uri _).trans (bind_congr fun found? => ?_)
  cases noDirectory? found? with
  | none =>
    unfold unlessRefused
    dsimp only
    rw [bind_assoc]
    rfl
  | some refusal => rfl

theorem run_status (uri : RemoteUri) : ((status (some uri)).run : FsM τ _) =
    FileSystem.call (StoreClient.entryAt? uri.path) >>= fun found? =>
      conclude fun _ => ((FileSystem.statusOf found?).map .status).mapError fun refusal =>
        .storeIo "get_file_status" uri.text refusal.message := by
  unfold run FileSystem.status
  dsimp only
  rw [bind_assoc]
  apply bind_congr
  intro found?
  unfold FileSystem.statusOf
  cases found? with
  | none => rfl
  | some entry => cases hmodified : entry.modified <;> simp only [hmodified] <;> rfl

theorem run_openFile (uri : RemoteUri) : ((openFile uri).run : FsM τ _) =
    FileSystem.call (StoreClient.openReader uri.path) >>= fun reader =>
      conclude fun _ => .ok (.reader reader) := rfl

theorem run_create (uri : RemoteUri) : ((create uri).run : FsM τ _) =
    FileSystem.call (StoreClient.createFile uri.path .overwrite) >>= fun writer =>
      conclude fun _ => .ok (.writer writer) := rfl

theorem run_exists? (uri : RemoteUri) : ((exists? uri).run : FsM τ _) =
    FileSystem.call (StoreClient.exists? uri.path) >>= fun found =>
      conclude fun _ => .ok (.found found) := rfl

theorem run_uriOfPath (path? : Option String) : ((uriOfPath path?).run : FsM τ _) =
    conclude fun account => match path? with
      | none => .error (.invalidArgument "Specified path is null")
      | some path => .ok (.uri (.ofPath account path)) := by
  cases path? <;> rfl

theorem run_copy (source target : RemoteUri) : ((copy source target).run : FsM τ _) =
    conclude fun _ => .error (.unsupported "remote-to-remote copy") := rfl

theorem run_status_none : ((status none).run : FsM τ _) =
    conclude fun _ => .error (.invalidArgument "Specified uri is null") := rfl

end run

section settles

variable {operation : FsOperation} {call : ClientCall}

theorem Settles.of_ok {give : call.Answer ρ ω → String → FsResult ρ ω}
    (hnever : ∀ answer, operation.refusal? (⟨call, .ok answer⟩ : Exchange ρ ω) = none)
    (hgives : ∀ answer account,
      operation.gives? account (some ⟨call, .ok answer⟩) = some (give answer account)) :
    operation.Settles call fun answer account => .ok (give answer account) := by
  constructor
  . exact fun answer account _ => ⟨give answer account, rfl, hgives answer account⟩
  . intro answer account refusal hrefusal
    rw [hnever answer] at hrefusal
    cases hrefusal

theorem Settles.of_doneIf {op : String} {uri : RemoteUri} {refusal : call.Answer ρ ω → Refusal}
    {accepted : call.Answer ρ ω → Bool} (hreported : operation.reportedAs? = some (op, uri))
    (hrefusal : ∀ answer, operation.refusal? ⟨call, .ok answer⟩ =
      if accepted answer then none else some (refusal answer))
    (hgives : ∀ answer account,
      operation.gives? account (some (⟨call, .ok answer⟩ : Exchange ρ ω)) = some .done) :
    operation.Settles call fun answer _ => doneIf op uri (refusal answer) (accepted answer) := by
  unfold doneIf
  constructor
  . intro answer account hnone
    rw [hrefusal] at hnone
    cases haccepted : accepted answer with
    | true => exact ⟨.done, rfl, hgives answer account⟩
    | false =>
      rw [haccepted] at hnone
      cases hnone
  . intro answer account other hother
    rw [hrefusal] at hother
    cases haccepted : accepted answer with
    | true =>
      rw [haccepted] at hother
      cases hother
    | false =>
      rw [haccepted] at hother
      cases hother
      exact ⟨op, uri, hreported, rfl⟩

theorem settles_status (uri : RemoteUri) :
    (status (some uri)).Settles (.entryAt? uri.path) fun (found? : Option Entry) _ =>
      (((FileSystem.statusOf found?).map .status).mapError fun refusal =>
        .storeIo "get_file_status" uri.text refusal.message : Except FsError (FsResult ρ ω)) := by
  constructor
  . intro found? account hnone
    cases found? with
    | none => cases hnone
    | some entry =>
      rcases entry with ⟨fullName, type, _ | modified, length⟩
      . cases hnone
      . exact ⟨_, rfl, rfl⟩
  . intro found? account refusal hrefusal
    cases found? with
    | none =>
      cases hrefusal
      exact ⟨_, uri, rfl, rfl⟩
    | some entry =>
      rcases entry with ⟨fullName, type, _ | modified, length⟩
      . cases hrefusal
        exact ⟨_, uri, rfl, rfl⟩
      . cases hrefusal

end settles

theorem isComplete_eq (transfer : Transfer) (refusal : Refusal) :
    (if transfer.failed = [] then none else some refusal) =
      if transfer.isComplete then none else some refusal := by
  unfold Transfer.isComplete
  cases transfer.failed <;> rfl

/-- Every operation keeps to the rules over every client, whatever the client answers. -/
theorem exact_over_any_client (client : σ) (operation : FsOperation) :
    operation.ExactOver client := by
  cases operation with
  | probe uri =>
    apply ExactOver.of_call (.entryAt? uri.path) (run_probe uri) (run_probe uri) rfl
    exact .of_ok (fun _ => rfl) fun _ _ => rfl
  | openFile uri =>
    apply ExactOver.of_call (.openReader uri.path) (run_openFile uri) (run_openFile uri) rfl
    exact .of_ok (fun _ => rfl) fun _ _ => rfl
  | create uri =>
    apply ExactOver.of_call (.createFile uri.path .overwrite) (run_create uri) (run_create uri) rfl
    exact .of_ok (fun _ => rfl) fun _ _ => rfl
  | exists? uri =>
    apply ExactOver.of_call (.exists? uri.path) (run_exists? uri) (run_exists? uri) rfl
    exact .of_ok (fun _ => rfl) fun _ _ => rfl
  | delete uri =>
    apply ExactOver.of_call (.delete uri.path) (run_delete uri) (run_delete uri) rfl
    exact .of_doneIf rfl (fun deleted => by cases deleted <;> rfl) fun _ _ => rfl
  | createDirectory uri =>
    apply ExactOver.of_call (.createDirectory uri.path) (run_createDirectory uri)
      (run_createDirectory uri) rfl
    exact .of_doneIf rfl (fun made => by cases made <;> rfl) fun _ _ => rfl
  | copyToLocal uri target =>
    apply ExactOver.of_call (.download uri.path target) (run_copyToLocal uri target)
      (run_copyToLocal uri target) rfl
    exact .of_doneIf rfl (fun transfer => isComplete_eq transfer _) fun _ _ => rfl
  | copyFromLocal source uri =>
    apply ExactOver.of_call (.upload source uri.path) (run_copyFromLocal source uri)
      (run_copyFromLocal source uri) rfl
    exact .of_doneIf rfl (fun transfer => isComplete_eq transfer _) fun _ _ => rfl
  | deleteDirectory uri =>
    apply ExactOver.of_guarded_call (.deleteRecursive uri.path) (run_deleteDirectory uri)
      (run_deleteDirectory uri) rfl (fun _ => rfl) rfl
    exact .of_doneIf rfl (fun deleted => by cases deleted <;> rfl) fun _ _ => rfl
  | children uri =>
    apply ExactOver.of_guarded_call (.list uri.path) (run_children uri) (run_children uri) rfl
      (fun _ => rfl) rfl
    exact .of_ok (fun _ => rfl) fun _ _ => rfl
  | copy source target =>
    apply ExactOver.of_no_call (run_copy source target) (run_copy source target)
    apply Exact.of_no_call rfl
    . intro error hdown
      cases hdown
      rfl
    . intro hoffered
      cases hoffered
  | uriOfPath path? =>
    apply ExactOver.of_no_call (run_uriOfPath path?) (run_uriOfPath path?)
    apply Exact.of_no_call rfl
    . intro error hdown
      cases path? <;> cases hdown
      rfl
    . intro hoffered
      cases path? with
      | none => cases hoffered
      | some path => exact ⟨_, rfl, rfl⟩
  | status uri? =>
    cases uri? with
    | some uri =>
      apply ExactOver.of_call (.entryAt? uri.path) (run_status uri) (run_status uri) rfl
      exact settles_status uri
    | none =>
      apply ExactOver.of_no_call run_status_none run_status_none
      apply Exact.of_no_call rfl
      . intro error hdown
        cases hdown
        rfl
      . intro hoffered
        cases hoffered

end FsOperation

end LakeStore
