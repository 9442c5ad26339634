import HateBlocker.Runs
import HateBlocker.AutoLayout
import HateBlocker.UIViewExtension
import HateBlocker.UIKit
import HateBlocker.ContainerController
import HateBlocker.Containment
import HateBlocker.EmbededView
import HateBlocker.Hops
import HateBlocker.CoordinatingResponder
import HateBlocker.Json
import HateBlocker.Post
import HateBlocker.FirebaseManager
import HateBlocker.PostsManager
import HateBlocker.Database
import HateBlocker.Mirror
import HateBlocker.PostsController
import HateBlocker.Sed
import HateBlocker.StructureCommand
import HateBlocker.Entries
import HateBlocker.LLRBNode
import HateBlocker.LLRBRemove
import HateBlocker.TreeBuilder
import HateBlocker.SortedDictionary
import HateBlocker.DictionaryEnumerator
import HateBlocker.KeyOrder
import HateBlocker.NextPushId
import HateBlocker.PathMaps
import HateBlocker.Node
import HateBlocker.ImmutableTree
import HateBlocker.CompoundWrite
import HateBlocker.WriteTree
import HateBlocker.PendingWrites
import HateBlocker.ChildChanges
import HateBlocker.ViewProcessor
import HateBlocker.ViewCaches
import HateBlocker.EventGenerator
import HateBlocker.SyncTree
import HateBlocker.SyncRuns
import HateBlocker.OperationEffects
import HateBlocker.SyncCaches
