import I3Aiwr.Parser.Token

/-!
# The specification of the commands

`parser-specs/commands.spec`, rule by rule, as `generate-command-parser.pl` reads it: a rule without
an action stays in its state, and a call without a state returns to `INITIAL`.

## Main definitions

* `CommandState`, `CommandIdentifier`: the states and identifiers
* `CommandState.rules`, `CommandState.tokens`: the rules of a state and the tokens they generate
-/

namespace I3.Parser

/-- The states of `parser-specs/commands.spec`. -/
inductive CommandState
  | initial | criteria | criterion | criterionFrom | criterionFromStrStart | criterionFromStr
  | criterionFromStrEnd | criterionStr | exec | shmlog | debuglog | border | borderWidth | gaps
  | gapsWithType | gapsWithScope | gapsWithMode | gapsEnd | layout | layoutToggle | appendLayout
  | workspace | workspaceNumber | focus | focusAuto | focusOutput | kill | fullscreen
  | fullscreenMode | fullscreenCompat | sticky | split | floating | mark | unmark | resize
  | resizeDirection | resizePx | resizeTiling | resizeTilingOr | resizeTilingFinal | resizeSet
  | resizeWidth | resizeHeightGetNumber | resizeHeight | rename | renameWorkspace
  | renameWorkspaceLikelyTo | renameWorkspaceLikelyToNewName | renameWorkspaceTo
  | renameWorkspaceToNewName | move | moveDirection | moveDirectionNumber | moveWorkspace
  | moveWorkspaceNumber | moveToOutput | moveToMark | moveWorkspaceToOutput
  | moveWorkspaceToOutputWord | moveToAbsolutePosition | moveToPosition | moveToPositionX
  | moveToPositionY | mode | nop | scratchpad | swap | swapArgument | titleFormat | titleWindowIcon
  | titleWindowIconPadding | scrolling | switcherCfg | overview | bar | barHiddenState
  | barHiddenStateId | barMode | barModeId
  deriving DecidableEq, Repr

/-- The identifiers of its tokens. -/
inductive CommandIdentifier
  | action | amount | arg | argument | barId | barValue | borderStyle | borderWidth | command
  | comment | coordX | coordY | ctype | cvalue | direction | enable | floating | format | height
  | killMode | kind | layoutMode | level | mark | method | mode | modeHeight | modeWidth | modeX
  | modeY | newName | noAutoBackAndForth | nosn | number | oldName | output | padding | path
  | resizePpt | resizePx | scope | set | toggle | toggleMode | type | value | way | width
  | windowMode | workspace
  deriving DecidableEq, Repr

/-- The rules of each state, in the order of the specification. -/
def CommandState.rules : CommandState → List (Rule CommandState CommandIdentifier)
  | .initial => [
      .on [.end_] (.goto .initial),
      .on ["["] (.call "cmd_criteria_init" [] .criteria),
      .on ["move"] (.goto .move),
      .on ["exec"] (.goto .exec),
      .on ["exit"] (.call "cmd_exit" [] .initial),
      .on ["restart"] (.call "cmd_restart" [] .initial),
      .on ["reload"] (.call "cmd_reload" [] .initial),
      .on ["shmlog"] (.goto .shmlog),
      .on ["debuglog"] (.goto .debuglog),
      .on ["border"] (.goto .border),
      .on ["layout"] (.goto .layout),
      .on ["append_layout"] (.goto .appendLayout),
      .on ["workspace"] (.goto .workspace),
      .on ["focus"] (.goto .focus),
      .on ["kill"] (.goto .kill),
      .on ["open"] (.call "cmd_open" [] .initial),
      .on ["fullscreen"] (.goto .fullscreen),
      .on ["sticky"] (.goto .sticky),
      .on ["split"] (.goto .split),
      .on ["floating"] (.goto .floating),
      .on ["mark"] (.goto .mark),
      .on ["unmark"] (.goto .unmark),
      .on ["resize"] (.goto .resize),
      .on ["rename"] (.goto .rename),
      .on ["switcher"] (.goto .switcherCfg),
      .on ["nop"] (.goto .nop),
      .on ["scratchpad"] (.goto .scratchpad),
      .on ["swap"] (.goto .swap),
      .on ["title_format"] (.goto .titleFormat),
      .on ["title_window_icon"] (.goto .titleWindowIcon),
      .on ["mode"] (.goto .mode),
      .on ["bar"] (.goto .bar),
      .on ["scrolling"] (.goto .scrolling),
      .on ["overview"] (.goto .overview),
      .on ["gaps"] (.goto .gaps)]
  | .criteria => [
      .into .ctype ["class"] (.goto .criterion),
      .into .ctype ["instance"] (.goto .criterion),
      .into .ctype ["window_role"] (.goto .criterion),
      .into .ctype ["con_id"] (.goto .criterion),
      .into .ctype ["id"] (.goto .criterion),
      .into .ctype ["window_type"] (.goto .criterion),
      .into .ctype ["con_mark"] (.goto .criterion),
      .into .ctype ["title"] (.goto .criterion),
      .into .ctype ["urgent"] (.goto .criterion),
      .into .ctype ["workspace"] (.goto .criterion),
      .into .ctype ["machine"] (.goto .criterion),
      .into .ctype ["floating_from"] (.goto .criterionFrom),
      .into .ctype ["tiling_from"] (.goto .criterionFrom),
      .into .ctype ["tiling", "floating", "all"]
        (.call "cmd_criteria_add" [.string .ctype, .null] .criteria),
      .on ["]"] (.call "cmd_criteria_match_windows" [] .initial)]
  | .criterion => [
      .on ["="] (.goto .criterionStr)]
  | .criterionFrom => [
      .on ["="] (.goto .criterionFromStrStart)]
  | .criterionFromStrStart => [
      .on ["\""] (.goto .criterionFromStr),
      .into .kind ["auto", "user"]
        (.call "cmd_criteria_add" [.string .ctype, .string .kind] .criteria)]
  | .criterionFromStr => [
      .into .kind ["auto", "user"] (.goto .criterionFromStrEnd)]
  | .criterionFromStrEnd => [
      .on ["\""] (.call "cmd_criteria_add" [.string .ctype, .string .kind] .criteria)]
  | .criterionStr => [
      .into .cvalue [.word] (.call "cmd_criteria_add" [.string .ctype, .string .cvalue] .criteria)]
  | .exec => [
      .into .nosn ["--no-startup-id"] (.goto .exec),
      .into .command [.string] (.call "cmd_exec" [.string .nosn, .string .command] .initial)]
  | .shmlog => [
      .into .argument [.string] (.call "cmd_shmlog" [.string .argument] .initial)]
  | .debuglog => [
      .into .argument ["toggle", "on", "off"] (.call "cmd_debuglog" [.string .argument] .initial)]
  | .border => [
      .into .borderStyle ["normal", "pixel", "toggle"] (.goto .borderWidth),
      .into .borderStyle ["none"] (.call "cmd_border" [.string .borderStyle, .int 0] .initial),
      .on ["1pixel"] (.call "cmd_border" [.text "pixel", .int 1] .initial)]
  | .borderWidth => [
      .on [.end_] (.call "cmd_border" [.string .borderStyle, .int (-1)] .initial),
      .into .borderWidth [.number]
        (.call "cmd_border" [.string .borderStyle, .long .borderWidth] .initial)]
  | .gaps => [
      .into .type ["inner", "outer", "horizontal", "vertical", "top", "right", "bottom", "left"]
        (.goto .gapsWithType)]
  | .gapsWithType => [
      .into .scope ["current", "all"] (.goto .gapsWithScope)]
  | .gapsWithScope => [
      .into .mode ["plus", "minus", "set", "toggle"] (.goto .gapsWithMode)]
  | .gapsWithMode => [
      .into .value [.word] (.goto .gapsEnd)]
  | .gapsEnd => [
      .on ["px"] (.goto .gapsEnd),
      .on [.end_]
        (.call "cmd_gaps" [.string .type, .string .scope, .string .mode, .string .value] .initial)]
  | .layout => [
      .into .layoutMode ["default", "stacked", "stacking", "tabbed", "splitv", "splith",
          "scrolling"]
        (.call "cmd_layout" [.string .layoutMode] .initial),
      .on ["toggle"] (.goto .layoutToggle)]
  | .layoutToggle => [
      .on [.end_] (.call "cmd_layout_toggle" [.string .toggleMode] .initial),
      .into .toggleMode [.string] (.call "cmd_layout_toggle" [.string .toggleMode] .initial)]
  | .appendLayout => [
      .into .path [.string] (.call "cmd_append_layout" [.string .path] .initial)]
  | .workspace => [
      .into .noAutoBackAndForth ["--no-auto-back-and-forth"] (.goto .workspace),
      .into .direction ["next_on_output", "prev_on_output", "next", "prev"]
        (.call "cmd_workspace" [.string .direction] .initial),
      .on ["back_and_forth"] (.call "cmd_workspace_back_and_forth" [] .initial),
      .on ["number"] (.goto .workspaceNumber),
      .into .workspace [.string]
        (.call "cmd_workspace_name" [.string .workspace, .string .noAutoBackAndForth] .initial)]
  | .workspaceNumber => [
      .into .workspace [.string]
        (.call "cmd_workspace_number" [.string .workspace, .string .noAutoBackAndForth] .initial)]
  | .focus => [
      .into .direction ["left", "right", "up", "down"]
        (.call "cmd_focus_direction" [.string .direction] .initial),
      .into .direction ["prev", "next"] (.goto .focusAuto),
      .on ["output"] (.goto .focusOutput),
      .into .windowMode ["tiling", "floating", "mode_toggle"]
        (.call "cmd_focus_window_mode" [.string .windowMode] .initial),
      .into .level ["parent", "child"] (.call "cmd_focus_level" [.string .level] .initial),
      .into .workspace ["workspace"] (.call "cmd_focus" [.int 1] .initial),
      .on [.end_] (.call "cmd_focus" [.int 0] .initial)]
  | .focusAuto => [
      .on ["sibling"] (.call "cmd_focus_sibling" [.string .direction] .initial),
      .on [.end_] (.call "cmd_focus_direction" [.string .direction] .initial)]
  | .focusOutput => [
      .into .output [.word] (.call "cmd_focus_output" [.string .output] .focusOutput),
      .on [.end_] (.call "cmd_focus_output" [.null] .initial)]
  | .kill => [
      .into .killMode ["window", "client"] (.call "cmd_kill" [.string .killMode] .initial),
      .on [.end_] (.call "cmd_kill" [.string .killMode] .initial)]
  | .fullscreen => [
      .into .action ["disable"] (.call "cmd_fullscreen" [.string .action, .text "output"] .initial),
      .into .action ["enable", "toggle"] (.goto .fullscreenMode),
      .into .action [""] (.goto .fullscreenCompat)]
  | .fullscreenMode => [
      .into .mode ["global"] (.call "cmd_fullscreen" [.string .action, .string .mode] .initial),
      .on [.end_] (.call "cmd_fullscreen" [.string .action, .text "output"] .initial)]
  | .fullscreenCompat => [
      .into .mode ["global"] (.call "cmd_fullscreen" [.text "toggle", .string .mode] .initial),
      .on [.end_] (.call "cmd_fullscreen" [.text "toggle", .text "output"] .initial)]
  | .sticky => [
      .into .action ["enable", "disable", "toggle"] (.call "cmd_sticky" [.string .action] .initial)]
  | .split => [
      .into .direction ["horizontal", "vertical", "toggle", "v", "h", "t"]
        (.call "cmd_split" [.string .direction] .initial)]
  | .floating => [
      .into .floating ["enable", "disable", "toggle"]
        (.call "cmd_floating" [.string .floating] .initial)]
  | .mark => [
      .into .mode ["--add", "--replace"] (.goto .mark),
      .into .toggle ["--toggle"] (.goto .mark),
      .into .mark [.string]
        (.call "cmd_mark" [.string .mark, .string .mode, .string .toggle] .initial)]
  | .unmark => [
      .on [.end_] (.call "cmd_unmark" [.string .mark] .initial),
      .into .mark [.string] (.call "cmd_unmark" [.string .mark] .initial)]
  | .resize => [
      .into .way ["grow", "shrink"] (.goto .resizeDirection),
      .into .set ["set"] (.goto .resizeSet)]
  | .resizeDirection => [
      .into .direction ["up", "down", "left", "right", "width", "height"] (.goto .resizePx)]
  | .resizePx => [
      .into .resizePx [.number] (.goto .resizeTiling),
      .on [.end_]
        (.call "cmd_resize" [.string .way, .string .direction, .int 10, .int 10] .initial)]
  | .resizeTiling => [
      .on ["px"] (.goto .resizeTiling),
      .on ["or"] (.goto .resizeTilingOr),
      .on [.end_]
        (.call "cmd_resize" [.string .way, .string .direction, .long .resizePx, .int 0] .initial)]
  | .resizeTilingOr => [
      .into .resizePpt [.number] (.goto .resizeTilingFinal)]
  | .resizeTilingFinal => [
      .on ["ppt", .end_]
        (.call "cmd_resize"
          [.string .way, .string .direction, .long .resizePx, .long .resizePpt] .initial)]
  | .resizeSet => [
      .on ["height"] (.goto .resizeHeightGetNumber),
      .on ["width"] (.goto .resizeSet),
      .into .width [.number] (.goto .resizeWidth)]
  | .resizeWidth => [
      .into .modeWidth ["px", "ppt"] (.goto .resizeWidth),
      .on [.end_]
        (.call "cmd_resize_set" [.long .width, .string .modeWidth, .int 0, .int 0] .initial),
      .on ["height"] (.goto .resizeHeightGetNumber),
      .into .height [.number] (.goto .resizeHeight)]
  | .resizeHeightGetNumber => [
      .into .height [.number] (.goto .resizeHeight)]
  | .resizeHeight => [
      .into .modeHeight ["px", "ppt"] (.goto .resizeHeight),
      .on [.end_]
        (.call "cmd_resize_set"
          [.long .width, .string .modeWidth, .long .height, .string .modeHeight] .initial)]
  | .rename => [
      .on ["workspace"] (.goto .renameWorkspace)]
  | .renameWorkspace => [
      .on ["to"] (.goto .renameWorkspaceLikelyTo),
      .into .oldName [.word] (.goto .renameWorkspaceTo)]
  | .renameWorkspaceLikelyTo => [
      .on ["to "] (.goto .renameWorkspaceLikelyToNewName),
      .into .newName [.word] (.call "cmd_rename_workspace" [.null, .string .newName] .initial)]
  | .renameWorkspaceLikelyToNewName => [
      .into .newName [.string]
        (.call "cmd_rename_workspace" [.text "to", .string .newName] .initial),
      .on [.end_] (.call "cmd_rename_workspace" [.null, .text "to"] .initial)]
  | .renameWorkspaceTo => [
      .on ["to"] (.goto .renameWorkspaceToNewName)]
  | .renameWorkspaceToNewName => [
      .into .newName [.string]
        (.call "cmd_rename_workspace" [.string .oldName, .string .newName] .initial)]
  | .move => [
      .on ["window"] (.goto .move),
      .on ["container"] (.goto .move),
      .on ["to"] (.goto .move),
      .into .noAutoBackAndForth ["--no-auto-back-and-forth"] (.goto .move),
      .on ["workspace"] (.goto .moveWorkspace),
      .on ["output"] (.goto .moveToOutput),
      .on ["mark"] (.goto .moveToMark),
      .on ["scratchpad"] (.call "cmd_move_scratchpad" [] .initial),
      .into .direction ["left", "right", "up", "down"] (.goto .moveDirection),
      .into .method ["position"] (.goto .moveToPosition),
      .into .method ["absolute"] (.goto .moveToAbsolutePosition)]
  | .moveDirection => [
      .into .amount [.number] (.goto .moveDirectionNumber),
      .on [.end_] (.call "cmd_move_direction" [.string .direction, .int 10, .text "px"] .initial)]
  | .moveDirectionNumber => [
      .into .mode ["px", "ppt"]
        (.call "cmd_move_direction" [.string .direction, .long .amount, .string .mode] .initial),
      .on [.end_]
        (.call "cmd_move_direction" [.string .direction, .long .amount, .text "px"] .initial)]
  | .moveWorkspace => [
      .on ["to "] (.goto .moveWorkspaceToOutput),
      .into .workspace ["next_on_output", "prev_on_output", "next", "prev", "current"]
        (.call "cmd_move_con_to_workspace" [.string .workspace] .initial),
      .on ["back_and_forth"] (.call "cmd_move_con_to_workspace_back_and_forth" [] .initial),
      .on ["number"] (.goto .moveWorkspaceNumber),
      .into .workspace [.string]
        (.call "cmd_move_con_to_workspace_name"
          [.string .workspace, .string .noAutoBackAndForth] .initial)]
  | .moveWorkspaceNumber => [
      .into .number [.string]
        (.call "cmd_move_con_to_workspace_number"
          [.string .number, .string .noAutoBackAndForth] .initial)]
  | .moveToOutput => [
      .into .output [.word]
        (.call "cmd_move_con_to_output" [.string .output, .int 0] .moveToOutput),
      .on [.end_] (.call "cmd_move_con_to_output" [.null, .int 0] .initial)]
  | .moveToMark => [
      .into .mark [.string] (.call "cmd_move_con_to_mark" [.string .mark] .initial)]
  | .moveWorkspaceToOutput => [
      .on ["output"] (.goto .moveWorkspaceToOutputWord)]
  | .moveWorkspaceToOutputWord => [
      .into .output [.word]
        (.call "cmd_move_con_to_output" [.string .output, .int 1] .moveWorkspaceToOutputWord),
      .on [.end_] (.call "cmd_move_con_to_output" [.null, .int 1] .initial)]
  | .moveToAbsolutePosition => [
      .on ["position"] (.goto .moveToPosition)]
  | .moveToPosition => [
      .on ["center"] (.call "cmd_move_window_to_center" [.string .method] .initial),
      .on ["mouse", "cursor", "pointer"] (.call "cmd_move_window_to_mouse" [] .initial),
      .into .coordX [.number] (.goto .moveToPositionX)]
  | .moveToPositionX => [
      .into .modeX ["px", "ppt"] (.goto .moveToPositionX),
      .into .coordY [.number] (.goto .moveToPositionY)]
  | .moveToPositionY => [
      .into .modeY ["px", "ppt"]
        (.call "cmd_move_window_to_position"
          [.long .coordX, .string .modeX, .long .coordY, .string .modeY] .initial),
      .on [.end_]
        (.call "cmd_move_window_to_position"
          [.long .coordX, .string .modeX, .long .coordY, .int 0] .initial)]
  | .mode => [
      .into .mode [.string] (.call "cmd_mode" [.string .mode] .initial)]
  | .nop => [
      .into .comment [.string] (.call "cmd_nop" [.string .comment] .initial),
      .on [.end_] (.call "cmd_nop" [.null] .initial)]
  | .scratchpad => [
      .on ["show"] (.call "cmd_scratchpad_show" [] .initial)]
  | .swap => [
      .on ["container"] (.goto .swap),
      .on ["with"] (.goto .swap),
      .into .mode ["id", "con_id", "mark"] (.goto .swapArgument)]
  | .swapArgument => [
      .into .arg [.string] (.call "cmd_swap" [.string .mode, .string .arg] .initial)]
  | .titleFormat => [
      .into .format [.string] (.call "cmd_title_format" [.string .format] .initial)]
  | .titleWindowIcon => [
      .on ["padding"] (.goto .titleWindowIconPadding),
      .into .enable ["toggle"] (.goto .titleWindowIconPadding),
      .into .enable ["1", "yes", "true", "on", "enable", "active", "0", "no", "false", "off",
          "disable", "inactive"]
        (.call "cmd_title_window_icon" [.string .enable, .int 0] .initial)]
  | .titleWindowIconPadding => [
      .on [.end_] (.call "cmd_title_window_icon" [.string .enable, .long .padding] .initial),
      .on ["px"] (.call "cmd_title_window_icon" [.string .enable, .long .padding] .initial),
      .into .padding [.number] (.goto .titleWindowIconPadding)]
  | .scrolling => [
      .into .action ["maximize", "wider", "narrower", "left", "right", "toggle"]
        (.call "cmd_scrolling" [.string .action] .initial)]
  | .switcherCfg => [
      .into .direction ["next", "prev"] (.call "cmd_switcher" [.string .direction] .initial)]
  | .overview => [
      .into .action ["toggle", "next", "prev", "select", "cancel"]
        (.call "cmd_overview" [.string .action] .initial),
      .on [.end_] (.call "cmd_overview" [.text "toggle"] .initial)]
  | .bar => [
      .on ["hidden_state"] (.goto .barHiddenState),
      .on ["mode"] (.goto .barMode)]
  | .barHiddenState => [
      .into .barValue ["hide", "show", "toggle"] (.goto .barHiddenStateId)]
  | .barHiddenStateId => [
      .into .barId [.word] (.goto .barHiddenStateId),
      .on [.end_] (.call "cmd_bar_hidden_state" [.string .barValue, .string .barId] .initial)]
  | .barMode => [
      .into .barValue ["dock", "hide", "invisible", "toggle"] (.goto .barModeId)]
  | .barModeId => [
      .into .barId [.word] (.goto .barModeId),
      .on [.end_] (.call "cmd_bar_mode" [.string .barValue, .string .barId] .initial)]

/-- The tokens of each state. -/
def CommandState.tokens (s : CommandState) : List (Token CommandState CommandIdentifier) :=
  s.rules.flatMap Rule.tokens

end I3.Parser
