import BathyScaphe.AppKit.KeyBinding
import BathyScaphe.BWAgent.BoardMenu
import BathyScaphe.BWAgent.BoardPlist
import BathyScaphe.BWAgent.Rosetta
import BathyScaphe.BWAgent.Sora
import BathyScaphe.Boards.BoardProperties
import BathyScaphe.Boards.DropOrder
import BathyScaphe.Boards.Insertion
import BathyScaphe.Boards.RoundTrip
import BathyScaphe.Browser.ThreadList
import BathyScaphe.Composer.AmpEntity
import BathyScaphe.Composer.Anchor
import BathyScaphe.Composer.AttributedMessageComposer
import BathyScaphe.Composer.DateFormatter
import BathyScaphe.Composer.IconLinks
import BathyScaphe.Composer.NGExpression
import BathyScaphe.Composer.NameCache
import BathyScaphe.Composer.OuterAnchor
import BathyScaphe.Composer.OuterCover
import BathyScaphe.Composer.OuterLinks
import BathyScaphe.Composer.OuterScan
import BathyScaphe.Composer.TagElements
import BathyScaphe.Cookies.CookieManager
import BathyScaphe.Cookies.CookieString
import BathyScaphe.Cookies.Replacement
import BathyScaphe.Cookies.Sending
import BathyScaphe.Cookies.SetCookieHeader
import BathyScaphe.Dat.DictReader
import BathyScaphe.Dat.Incremental
import BathyScaphe.Database.BoardNames
import BathyScaphe.Database.Favorites
import BathyScaphe.Database.Status
import BathyScaphe.Database.SubjectImport
import BathyScaphe.Database.Updater
import BathyScaphe.Foundation.BaseAllocator
import BathyScaphe.Foundation.BitArray
import BathyScaphe.Foundation.BufferedReader
import BathyScaphe.Foundation.CArray
import BathyScaphe.Foundation.CharacterSequences
import BathyScaphe.Foundation.FixedAllocator
import BathyScaphe.Foundation.FreeList
import BathyScaphe.Foundation.NewlineComponents
import BathyScaphe.Foundation.RangeArray
import BathyScaphe.Foundation.RangedReplacement
import BathyScaphe.Foundation.SkippingScanner
import BathyScaphe.Foundation.ThreadSafeQueue
import BathyScaphe.Foundation.URLEscape
import BathyScaphe.History.Saving
import BathyScaphe.Host.HTMLDat
import BathyScaphe.Host.RawmodeReading
import BathyScaphe.Host.HostTypes
import BathyScaphe.Host.ReadURL
import BathyScaphe.Host.ReadURLBuilding
import BathyScaphe.Host.URLText
import BathyScaphe.Lib.Adjacent
import BathyScaphe.Lib.Blocks
import BathyScaphe.Lib.Cutting
import BathyScaphe.Lib.Fields
import BathyScaphe.Lib.Keyed
import BathyScaphe.Lib.Linked
import BathyScaphe.Lib.Macro
import BathyScaphe.Lib.Markup
import BathyScaphe.Lib.Memo
import BathyScaphe.Lib.NonOverlapping
import BathyScaphe.Lib.Overlay
import BathyScaphe.Lib.PackedBits
import BathyScaphe.Lib.PartialKey
import BathyScaphe.Lib.Patch
import BathyScaphe.Lib.Reading
import BathyScaphe.Lib.Rewrite
import BathyScaphe.Lib.Runs
import BathyScaphe.Lib.Swap
import BathyScaphe.Message.Status
import BathyScaphe.Message.UndoSupport
import BathyScaphe.Messaging.Delivery
import BathyScaphe.Messaging.Shutdown
import BathyScaphe.Network.NetGrobalLock
import BathyScaphe.Palette.DatePickerCell
import BathyScaphe.Previewer.Consistency
import BathyScaphe.Previewer.HistoryManager
import BathyScaphe.Previewer.Runs
import BathyScaphe.Reply.ErrorHandler
import BathyScaphe.Reply.Form
import BathyScaphe.Reply.Messenger
import BathyScaphe.Reply.Quoting
import BathyScaphe.Reply.ResponseID
import BathyScaphe.Smart.Clause
import BathyScaphe.Smart.Coder
import BathyScaphe.Smart.DateEditor
import BathyScaphe.Spam.Persistence
import BathyScaphe.Spotlight.GetMetadataForFile
import BathyScaphe.Tasks.TaskManager
import BathyScaphe.Thread.BufferSync
import BathyScaphe.Thread.Find
import BathyScaphe.Thread.LinkProcessor
import BathyScaphe.Thread.Navigation
import BathyScaphe.Thread.OwnHistory
import BathyScaphe.Thread.Revealing
import BathyScaphe.Thread.Selection
import BathyScaphe.Thread.StandardLink
import BathyScaphe.Thread.VisibleRange
import BathyScaphe.Xml.Coalescing
import BathyScaphe.Xml.Depth
import BathyScaphe.Xml.EntityReplacement
import BathyScaphe.Xml.Page
import BathyScaphe.Xml.Removal
import BathyScaphe.Xml.Whitespace
