import I3Aiwr.Lib.Runs
import I3Aiwr.Lib.Queue
import I3Aiwr.Lib.TailQueue
import I3Aiwr.Lib.Descent
import I3Aiwr.Lib.Framing
import I3Aiwr.Lib.Links
import I3Aiwr.Lib.Pick
import I3Aiwr.Lib.Tour
import I3Aiwr.Lib.Brackets
import I3Aiwr.Lib.Choice
import I3Aiwr.Lib.Countdown
import I3Aiwr.Lib.Recent
import I3Aiwr.Lib.Walk
import I3Aiwr.Lib.Depth
import I3Aiwr.Lib.Settings
import I3Aiwr.Lib.Apportion
import I3Aiwr.Lib.Bisection
import I3Aiwr.Lib.Window
import I3Aiwr.Log.Ring
import I3Aiwr.Log.Readable
import I3Aiwr.Parser.Stack
import I3Aiwr.Parser.Token
import I3Aiwr.Parser.CommandSpec
import I3Aiwr.Parser.ConfigSpec
import I3Aiwr.Parser.CommandEnds
import I3Aiwr.Parser.CommandLists
import I3Aiwr.Parser.CommandParser
import I3Aiwr.Parser.ConfigParser
import I3Aiwr.Parser.Slots
import I3Aiwr.Parser.Reading
import I3Aiwr.Parser.Variables
import I3Aiwr.Parser.Substitution
import I3Aiwr.Parser.Placeholders
import I3Aiwr.Parser.Include
import I3Aiwr.Parser.IncludeOnce
import I3Aiwr.Parser.Progress
import I3Aiwr.Parser.ConfigEnds
import I3Aiwr.Parser.Separator
import I3Aiwr.Tree.Scrolling
import I3Aiwr.Tree.Query
import I3Aiwr.Tree.Edit
import I3Aiwr.Tree.Focus
import I3Aiwr.Tree.Rooted
import I3Aiwr.Tree.Graft
import I3Aiwr.Tree.Close
import I3Aiwr.Tree.Show
import I3Aiwr.Tree.ScrollLife
import I3Aiwr.Tree.Reveal
import I3Aiwr.Tree.Attach
import I3Aiwr.Tree.Calm
import I3Aiwr.Tree.Moved
import I3Aiwr.Tree.Edits
import I3Aiwr.Tree.Intact
import I3Aiwr.Tree.Held
import I3Aiwr.Tree.Fullscreen
import I3Aiwr.Tree.Swap
import I3Aiwr.Tree.Exclusive
import I3Aiwr.Tree.SwapModes
import I3Aiwr.Tree.Representation
import I3Aiwr.Tree.Stacks
import I3Aiwr.Tree.Labels
import I3Aiwr.Tree.Marks
import I3Aiwr.Tree.Merge
import I3Aiwr.Tree.Foremost
import I3Aiwr.Tree.CloseEnds
import I3Aiwr.Tree.Flatten
import I3Aiwr.Tree.Alters
import I3Aiwr.Tree.Tidy
import I3Aiwr.Tree.Unfold
import I3Aiwr.Tree.Toggle
import I3Aiwr.Tree.TransientFor
import I3Aiwr.Tree.Windows
import I3Aiwr.Tree.Encapsulate
import I3Aiwr.Tree.FocusChain
import I3Aiwr.Tree.Operations
import I3Aiwr.Tree.WayDown
import I3Aiwr.Tree.Wrapped
import I3Aiwr.Tree.Nested
import I3Aiwr.Tree.SetLayout
import I3Aiwr.Tree.Move
import I3Aiwr.Tree.Resize
import I3Aiwr.Tree.Columns
import I3Aiwr.Tree.Presets
import I3Aiwr.Tree.Percent
import I3Aiwr.Tree.Flattened
import I3Aiwr.Tree.Overview
import I3Aiwr.Tree.RevealAgain
import I3Aiwr.Tree.Insert
import I3Aiwr.Tree.Shown
import I3Aiwr.Tree.Container
import I3Aiwr.Tree.Render
import I3Aiwr.Output.Containing
import I3Aiwr.Output.Clones
import I3Aiwr.Floating.Coordinates
import I3Aiwr.Floating.Scratchpad
import I3Aiwr.Floating.ScratchpadShow
import I3Aiwr.Floating.Resize
import I3Aiwr.Restart.Dump
import I3Aiwr.Restart.Load
import I3Aiwr.Restart.Texts
import I3Aiwr.Restart.Parts
import I3Aiwr.Restart.Attaching
import I3Aiwr.Restart.RoundTrip
import I3Aiwr.Floating.Enable
import I3Aiwr.Workspace.Cycle
import I3Aiwr.Workspace.CycleScan
import I3Aiwr.Workspace.Tour
import I3Aiwr.Workspace.RoundTrip
import I3Aiwr.Workspace.OnOutput
import I3Aiwr.Workspace.Gaps
import I3Aiwr.Switcher.Collect
import I3Aiwr.Switcher.Recency
import I3Aiwr.Ipc.Stream
import I3Aiwr.Ipc.Channel
import I3Aiwr.Ipc.Server
import I3Aiwr.Ipc.Mailbox
import I3Aiwr.Anim.Clock
import I3Aiwr.Anim.Ended
import I3Aiwr.Anim.Bezier
import I3Aiwr.Configuration.Values
import I3Aiwr.Configuration.Curves
import I3Aiwr.Configuration.Modes
import I3Aiwr.Configuration.Bars
import I3Aiwr.Configuration.Assignments
import I3Aiwr.Configuration.Modules
import I3Aiwr.Configuration.Directives
import I3Aiwr.Configuration.Reload
import I3Aiwr.Configuration.BindingModes
import I3Aiwr.Configuration.WindowCommands
import I3Aiwr.Tree.Next
import I3Aiwr.Tree.ToggleLayout
import I3Aiwr.X.Unmap
import I3Aiwr.X.StateMessages
import I3Aiwr.X.Withdrawal
import I3Aiwr.X.Stacking
import I3Aiwr.X.ClientList
import I3Aiwr.X.OpeningAnimation
import I3Aiwr.X.RoundedCorners
import I3Aiwr.X.RoundedSpans
import I3Aiwr.X.Blur
import I3Aiwr.X.Icons
import I3Aiwr.X.IconChoice
import I3Aiwr.Bar.WorkspaceCommand
import I3Aiwr.Bar.Clicks
import I3Aiwr.Bar.Fitting
import I3Aiwr.Bar.StatusLine
import I3Aiwr.Bar.StripNumber
import I3Aiwr.Bar.Workspaces
import I3Aiwr.Bar.Quoting
import I3Aiwr.Lib.Rounds
import I3Aiwr.Output.UserNames
import I3Aiwr.Workspace.Desktops
import I3Aiwr.Tree.IntactMoves
