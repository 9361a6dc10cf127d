import LuaBinaryTable.Sorting.InsertionSort
import LuaBinaryTable.Writer.Equiv.Clean
import LuaBinaryTable.BinaryTable
import LuaBinaryTable.Reader.Equiv.Clean
import LuaBinaryTable.Document.Equiv.Emit
import LuaBinaryTable.Document.Equiv.Encode
import LuaBinaryTable.Lua.Border
import LuaBinaryTable.Lua.SameValue
import LuaBinaryTable.RoundTrip
import LuaBinaryTable.RoundTrip.Truncate
import LuaBinaryTable.Writer.Equiv.SortCmp
import LuaBinaryTable.RoundTrip.Number
import LuaBinaryTable.RoundTrip.Pool
import LuaBinaryTable.Reader.Equiv.Recorded
import LuaBinaryTable.RoundTrip.Dump
import LuaBinaryTable.Writer.Equiv.Visits
import LuaBinaryTable.Document.Equiv.Entries
import LuaBinaryTable.StackBudget
import LuaBinaryTable.Writer.Equiv.Supported
import LuaBinaryTable.RoundTrip.Canonical
import LuaBinaryTable.Luabt.Equiv.Main
import LuaBinaryTable.Writer.Equiv.DumpString
import LuaBinaryTable.Writer.Equiv.DumpNumber
import LuaBinaryTable.BinaryWriter.Equiv.Operations
import LuaBinaryTable.Writer.Equiv.TableSort
import LuaBinaryTable.Luabt.Equiv.Recompress
import LuaBinaryTable.Lua.Equiv.Getn
import LuaBinaryTable.Reader.Equiv.Size
import LuaBinaryTable.RoundTrip.Size
import LuaBinaryTable.RoundTrip.Buffer
import LuaBinaryTable.RoundTrip.SameDump
