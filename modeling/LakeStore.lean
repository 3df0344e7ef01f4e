import LakeStore.Main
import LakeStore.Proofs.Path.Below
import LakeStore.Proofs.Path.DotSegments
import LakeStore.Proofs.Contents
import LakeStore.Proofs.Memory.Tree
import LakeStore.Proofs.Host.Disk
import LakeStore.Proofs.Host.Lookup
import LakeStore.Proofs.Path.Host
import LakeStore.Proofs.Path.Parents
import LakeStore.Proofs.Host.Region
import LakeStore.Proofs.Host.Change
import LakeStore.Proofs.Host.Growth
import LakeStore.Proofs.Host.Walk
import LakeStore.Proofs.Store.Session
import LakeStore.Proofs.Memory.Client
import LakeStore.Proofs.Memory.Keys
import LakeStore.Proofs.Path.Order
import LakeStore.Proofs.PathMap
import LakeStore.Proofs.Memory.Refusal
import LakeStore.Proofs.Memory.Effect
import LakeStore.Proofs.Memory.Lasting
import LakeStore.Proofs.Memory.Local
import LakeStore.Proofs.Host.Removal
import LakeStore.Proofs.Directory.Rooted
import LakeStore.Proofs.Directory.Runs
import LakeStore.Proofs.Directory.Missing
import LakeStore.Proofs.Uri
import LakeStore.Proofs.Uri.Grammar
import LakeStore.Proofs.FileSystem.Reference
import LakeStore.Proofs.Memory.Operations
import LakeStore.Proofs.Memory.Listing
import LakeStore.Proofs.Host.Effect
import LakeStore.Proofs.Directory.Files
import LakeStore.Proofs.Path.Target
import LakeStore.Proofs.Directory.Operations
import LakeStore.Proofs.Directory.Listing
import LakeStore.Proofs.FileSystem.Agreement
import LakeStore.Proofs.FileSystem.Addresses
import LakeStore.Proofs.Memory.Upload
import LakeStore.Proofs.Host.Vacant
import LakeStore.Proofs.Transfer.Reading
import LakeStore.Proofs.Transfer.Upload
import LakeStore.Proofs.Directory.Transfers
import LakeStore.Proofs.FileSystem.RoundTrip
import LakeStore.Proofs.Memory.Independence
import LakeStore.Proofs.FileSystem.Exactness
import LakeStore.Proofs.Memory.Writers
import LakeStore.Proofs.Memory.Creation
import LakeStore.Proofs.Host.Making
import LakeStore.Proofs.Directory.Leftovers
import LakeStore.Proofs.Directory.Creation
import LakeStore.Proofs.FileSystem.Creation
import LakeStore.Proofs.Path.Translation
import LakeStore.Proofs.Host.Place
import LakeStore.Proofs.Transfer.Delivery
import LakeStore.Proofs.Host.Arrival
import LakeStore.Proofs.Transfer.Carrying
import LakeStore.Proofs.FileSystem.Transfers
import LakeStore.Proofs.Transfer.DownloadDelivery
import LakeStore.Proofs.Directory.Containment
import LakeStore.Proofs.Memory.Deletion
import LakeStore.Proofs.Directory.Confirmation
import LakeStore.Proofs.Memory.ReadYourWrites
import LakeStore.Proofs.Transfer.Places
import LakeStore.Proofs.FileSystem.FullNames
import LakeStore.Proofs.Uri.Authority
import LakeStore.Proofs.Transfer.Failures
import LakeStore.Proofs.Host.Detour
import LakeStore.Proofs.Transfer.Detour
import LakeStore.Proofs.FileSystem.CallPaths
