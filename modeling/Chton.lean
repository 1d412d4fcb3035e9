import Chton.AreaPartitions
import Chton.TransparentReopenings
import Chton.EnumerationAgreement
import Chton.DroppedStores
import Chton.DurableStates
import Chton.FiniteMaps
import Chton.FileStores
import Chton.EntityAgreement
import Chton.KeyDigits
import Chton.CellGuards
import Chton.FsListings
import Chton.FsKeys
import Chton.Replacements
import Chton.FileBatches
import Chton.Truncations
import Chton.PointerWidths
import Chton.MediumAgreement
import Chton.HostileImages
import Chton.ResilientStores
import Chton.KeyOrder
import Chton.ResolveAgreement
import Chton.AxisFilters
import Chton.ProximityQueries
import Chton.OriginContracts
import Chton.CrashedChannels
import Chton.SpaceAccounts
import Chton.ChannelAgreement
import Chton.EnumerationCosts
import Chton.EntityRefusals
import Chton.SharedEntities
import Chton.ByteKeyMaps
import Chton.RangeQueries
import Chton.BlockSlices
import Chton.MovingStores
import Chton.SortedListings
import Chton.SpatialQueries
import Chton.NamedShapes
