import OpenBinder.Value.CompareLaw
import OpenBinder.Value.InheritLaw
import OpenBinder.Parcel.OutputLaw
import OpenBinder.Parcel.InputLaw
import OpenBinder.Driver.Write
import OpenBinder.Driver.DataBounds
import OpenBinder.Driver.RequestLaw
import OpenBinder.Driver.DescriptorLaw
import OpenBinder.Looper.Transact
import OpenBinder.Pipe.PipeLaw
import OpenBinder.Buffer.PoolLaw
import OpenBinder.Handler.QueueOrder
import OpenBinder.Handler.Wakeup
import OpenBinder.Handler.Exclusion
import OpenBinder.Catalog.MirrorView
import OpenBinder.Store.StoreLaw
import OpenBinder.Stream.RemoteStorageLaw
import OpenBinder.Remote.EffectLaw
import OpenBinder.Remote.LocalParameter
import OpenBinder.Remote.InvokeLaw
import OpenBinder.Death.DeathLinkLaw
import OpenBinder.Inform.InformantLaw
import OpenBinder.Link.PushLaw
import OpenBinder.Proxy.ProxiesLaw
import OpenBinder.Xml.ReferenceLaw
import OpenBinder.Xml.Report
import OpenBinder.Value.LexicalLaw
import OpenBinder.Driver.TeamRefs
import OpenBinder.Value.MapValuesLaw
import OpenBinder.Value.MapHeapLaw
import OpenBinder.Value.RemoveKey
import OpenBinder.Value.Replicas
import OpenBinder.Value.Duration
import OpenBinder.Parcel.MapCount
import OpenBinder.Parcel.Decode
import OpenBinder.Parcel.VariablesLaw
import OpenBinder.Package.Components
import OpenBinder.Vector.SortedVectorLaw
import OpenBinder.Vector.RelocationLaw
import OpenBinder.Vector.AsValueLaw
import OpenBinder.MemoryDealer.HeapRun
import OpenBinder.MemoryDealer.History
import OpenBinder.Package.Instantiate
import OpenBinder.Atom.PendingLaw
import OpenBinder.Cache.CacheLaw
import OpenBinder.Bitfield.RunLaw
import OpenBinder.Datum.ReportLaw
import OpenBinder.Datum.IndexedTableLaw
import OpenBinder.App.GetOpts
import OpenBinder.Catalog.LeafLaw
