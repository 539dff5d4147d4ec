import CifApi.Scanner.Normalization
import CifApi.Value.Serialization
import CifApi.Value.Map
import CifApi.Store.ItemRemoval
import CifApi.Store.Walk
import CifApi.Store.ScalarValue
import CifApi.Store.ScalarCategory
import CifApi.Parser.TextFields
import CifApi.Parser.EncodedText
import CifApi.Writer.Statistics
import CifApi.Writer.Framing
import CifApi.Exec.Discipline
import CifApi.Parser.Abort
import CifApi.Linguist.TextField
import CifApi.Linguist.FoldLength
import CifApi.Linguist.FoldChoice
import CifApi.Linguist.PrintedField
import CifApi.Scanner.ValueToken
import CifApi.Writer.Recommended
import CifApi.Parser.UnquotedMarking
import CifApi.Scanner.ValueScan
import CifApi.Value.NumbText
import CifApi.Value.AutoinitNumb
import CifApi.Value.BignumBounds
import CifApi.Data.Limbs
import CifApi.Data.NearestEven
import CifApi.Parser.LoopColumns
import CifApi.Parser.Guarded
import CifApi.Value.BufferGrowth
import CifApi.Store.LoopedValue
import CifApi.Scanner.CharacterChecks
import CifApi.Writer.FoldChoice
import CifApi.Value.Overlap
import CifApi.Store.PacketReuse
import CifApi.Value.KeyStrings
import CifApi.Writer.LoopRows
import CifApi.Value.Standalone
import CifApi.Parser.Skipping
import CifApi.Linguist.ColumnAccounting
import CifApi.Linguist.WhitespaceOrder
import CifApi.Scanner.ByteSource
import CifApi.Writer.OutputValue
