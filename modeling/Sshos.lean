import Sshos.Lib.Incremental
import Sshos.Lib.Bytes
import Sshos.Lib.Run
import Sshos.Lib.Sampling
import Sshos.Lib.Links
import Sshos.Lib.Grid
import Sshos.Lib.Checked
import Sshos.Lib.Decimal
import Sshos.Lib.Strings
import Sshos.Lib.Partition
import Sshos.Lib.Round
import Sshos.Lib.Shelf
import Sshos.Lib.Bindings
import Sshos.Lib.History
import Sshos.Lib.Brackets
import Sshos.Common.Proto
import Sshos.Common.ProtoFraming
import Sshos.Common.ProtoStream
import Sshos.Common.OutQueue
import Sshos.Common.Utf8
import Sshos.Common.Utf8Text
import Sshos.Common.Utf8Walk
import Sshos.Input.Parser
import Sshos.Input.Shortcuts
import Sshos.Render.Cell
import Sshos.Render.Surface
import Sshos.Render.Profile
import Sshos.Render.Diff
import Sshos.Render.DiffSilent
import Sshos.Vt.Scrollback
import Sshos.Vt.Screen
import Sshos.Vt.ScreenCells
import Sshos.Vt.ScreenBounds
import Sshos.Vt.ScreenMachine
import Sshos.Vt.ScreenRange
import Sshos.Vt.ScreenWide
import Sshos.Vt.ScreenEdits
import Sshos.Vt.ScreenScrolls
import Sshos.Vt.ScreenWrap
import Sshos.Vt.ScreenAlt
import Sshos.Vt.Parser
import Sshos.Vt.ParserReads
import Sshos.Vt.ParserParams
import Sshos.Vt.ParserResync
import Sshos.Vt.ParserCut
import Sshos.Vt.ParserLimits
import Sshos.Vt.ParserUtf8
import Sshos.Vt.Attrs
import Sshos.Vt.AttrsGroups
import Sshos.Vt.Modes
import Sshos.Wm.Manager
import Sshos.Shell.Modal
import Sshos.Shell.ModalDraw
import Sshos.Shell.UpdateService
import Sshos.Shell.UpdateState
import Sshos.Shell.UpdateFirst
import Sshos.Shell.UpdateAppended
import Sshos.Shell.UpdateNumbers
import Sshos.Shell.UpdateTexts
import Sshos.Pty.Pty
import Sshos.Pty.Env
import Sshos.Apps.Guest
import Sshos.Apps.Tabs
import Sshos.Apps.Emulator
import Sshos.Apps.GuestRange
import Sshos.Apps.StyleReads
import Sshos.Apps.EmulatorReads
import Sshos.Apps.DiffShown
import Sshos.Apps.Borrow
import Sshos.Daemon.Reap
import Sshos.Daemon.Connection
import Sshos.Daemon.Session
import Sshos.Daemon.SessionModal
import Sshos.Daemon.Dialogs
import Sshos.Input.Framing
import Sshos.Input.Chunks
import Sshos.Input.Timeout
import Sshos.Input.Resync
import Sshos.Input.Encode
import Sshos.Input.Typing
import Sshos.Lib.Ring
import Sshos.Vt.History
import Sshos.Apps.Paste
import Sshos.Render.View
import Sshos.Render.Confine
import Sshos.Render.Width
import Sshos.Render.Elide
import Sshos.Render.Ink
import Sshos.Wm.Desktop
import Sshos.Wm.DesktopRuns
import Sshos.Wm.Cycle
import Sshos.Wm.Windows
import Sshos.Wm.Tile
import Sshos.Wm.Tiling
import Sshos.Wm.Decor
import Sshos.Shell.Panel
import Sshos.Shell.PanelPlaces
import Sshos.Shell.PanelSound
import Sshos.Daemon.Desk
import Sshos.Daemon.Compose
import Sshos.Daemon.Gesture
import Sshos.Daemon.Clicks
import Sshos.Daemon.Front
import Sshos.Daemon.Toggles
import Sshos.Daemon.Routes
import Sshos.Daemon.Filled
import Sshos.Daemon.Seen
import Sshos.Lib.FileTree
import Sshos.Apps.FileJob
import Sshos.Apps.FileJobSteps
import Sshos.Apps.FileJobSpares
import Sshos.Apps.FileJobWhole
import Sshos.Apps.FileJobStack
import Sshos.Apps.FileJobKeeps
import Sshos.Apps.FileJobComplete
import Sshos.Apps.FileJobEnds
import Sshos.Apps.FileJobInPlace
import Sshos.Apps.FileJobDelete
import Sshos.Apps.FileJobDeleted
import Sshos.Apps.Dir
import Sshos.Apps.ProcStat
import Sshos.Apps.ProcFiles
import Sshos.Apps.DirOrder
import Sshos.Apps.Files
import Sshos.Apps.FilesSteps
import Sshos.Apps.FilesHistory
import Sshos.Apps.FilesCoherent
import Sshos.Apps.FilesDrag
import Sshos.Apps.FilesDrop
import Sshos.Apps.FilesRename
import Sshos.Lib.Lists
import Sshos.Daemon.Host
import Sshos.Daemon.Loop
import Sshos.Daemon.LoopKept
import Sshos.Apps.Tabbed
import Sshos.Apps.TabBar
import Sshos.Apps.TabShown
import Sshos.Apps.TabClicks
import Sshos.Apps.MouseEcho
import Sshos.Apps.TabbedSteps
import Sshos.Apps.TabStable
import Sshos.Apps.TabDead
import Sshos.Apps.TabIsolated
import Sshos.Daemon.Resize
import Sshos.Shell.UpdateRuns
import Sshos.Lib.Lines
import Sshos.Daemon.Config
import Sshos.Apps.TextBuffer
import Sshos.Apps.BufferEdits
import Sshos.Apps.Editor
import Sshos.Apps.EditorSaves
import Sshos.Apps.EditorText
import Sshos.Apps.TabFields
import Sshos.Apps.FilesFields
import Sshos.Lib.Volume
import Sshos.Apps.EditorAtomic
import Sshos.Client.TtyGuard
import Sshos.Client.Client
import Sshos.Client.Linked
import Sshos.Client.Attachment
import Sshos.Daemon.LoopTimed
import Sshos.Vt.ScreenLegible
import Sshos.Apps.EmulatorLegible
import Sshos.Apps.Viewport
import Sshos.Shell.SnapAssist
import Sshos.Shell.SysInfo
import Sshos.Daemon.Keyboard
import Sshos.Daemon.Docked
import Sshos.Daemon.TypedThrough
import Sshos.Shell.Menu
