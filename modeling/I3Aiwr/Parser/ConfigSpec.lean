import I3Aiwr.Parser.Token

/-!
# The specification of the configuration

`parser-specs/config.spec`, rule by rule, as `generate-command-parser.pl` reads it. The arrow of
`assign` is written as its three bytes.

## Main definitions

* `ConfigState`, `ConfigIdentifier`: the states and identifiers
* `ConfigState.rules`, `ConfigState.tokens`: the rules of a state and the tokens they generate
-/

namespace I3.Parser

/-- The states of `parser-specs/config.spec`. -/
inductive ConfigState
  | initial | ignoreLine | gaps | gapsWithScope | gapsEnd | switcher | switcherMaxItems
  | switcherPreview | roundedCorners | roundedCornersRadius | roundedCornersFloating
  | roundedCornersTiling | overview | overviewThumbnailScale | overviewThumbnailBlur
  | overviewSpacing | overviewAnimationDuration | overviewBackgroundOpacity | overviewBackgroundBlur
  | overviewWallpaperPath | overviewLivePreviews | overviewParticles | overviewFps
  | overviewBorderColor | overviewBorderColorEnd | overviewBorderInactive | overviewBorderWidth
  | overviewBorderSpeed | gradientBorder | gradientBorderInactiveStart | gradientBorderInactiveEnd
  | gradientBorderAngle | gradientBorderSpeed | gradientBorderFps | gradientBorderColorStart
  | gradientBorderColorEnd | gradientBorderDirection | workspaceTransition
  | workspaceTransitionDuration | workspaceTransitionDirection | workspaceTransitionType
  | workspaceTransitionCurve | workspaceTransitionFps | windowAnimation | windowAnimationDuration
  | windowAnimationScale | windowAnimationCurve | windowAnimationFps | windowAnimationOpacity
  | windowAnimationStartOpacity | windowAnimationClose | windowAnimationCloseDuration
  | windowAnimationCloseScale | windowAnimationCloseCurve | windowAnimationCloseOpacity | bezier
  | spring | resizeLive | resizeLiveFps | dynamicWorkspaces | scrolling | scrollingWidth
  | scrollingDuration | scrollingCurve | scrollingCenterFocus | smartBorders | smartGaps | include
  | floatingMinimumSizeWidth | floatingMinimumSizeX | floatingMinimumSizeHeight
  | floatingMaximumSizeWidth | floatingMaximumSizeX | floatingMaximumSizeHeight | floatingModifier
  | tilingDragSwapModifier | defaultOrientation | workspaceLayout | defaultBorder
  | defaultBorderPixels | defaultBorderPixelsPx | hideEdgeBorders | forWindow | forWindowCommand
  | assign | assignWorkspace | assignOutput | assignWorkspaceNumber | noFocus | noFocusEnd
  | criteria | criterion | criterionFrom | criterionFromStrStart | criterionFromStr
  | criterionFromStrEnd | criterionStr | focusFollowsMouse | mouseWarping | focusWrapping
  | forceFocusWrapping | forceXinerama | disableRandr15 | workspaceBackAndForth | fakeOutputs
  | forceDisplayUrgencyHint | titleAlign | showMarks | forceDisplayUrgencyHintMs
  | focusOnWindowActivation | workspace | workspaceCommand | workspaceOutputWord | ipcSocket
  | ipcKillTimeout | restartState | popupDuringFullscreen | tilingDragMode | tilingDrag
  | colorSingle | colorBorder | colorBackground | colorText | colorIndicator | colorChildBorder
  | exec | font | binding | bindcommand | modename | modebrace | mode | modeIgnoreLine | modeBinding
  | modeBindcommand | barbrace | bar | barIgnoreLine | barBarCommand | barStatusCommand
  | barWorkspaceCommand | barSocketPath | barMode | barHiddenState | barId | barModifier
  | barWheelUpCmd | barWheelDownCmd | barBindsym | barBindsymCommand | barPosition | barOutput
  | barTrayOutput | barTrayPadding | barTrayPaddingPx | barFont | barSeparatorSymbol
  | barBindingModeIndicator | barWorkspaceButtons | barWorkspaceMinWidth | barWorkspaceMinWidthPx
  | barStripWorkspaceNumbers | barStripWorkspaceName | barVerbose | barHeight | barPadding
  | barPaddingTop | barPaddingRight | barPaddingBottom | barPaddingLeft | barColorsBrace | barColors
  | barColorsIgnoreLine | barColorsSingle | barColorsBorder | barColorsBackground | barColorsText
  deriving DecidableEq, Repr

/-- The identifiers of its tokens. -/
inductive ConfigIdentifier
  | alignment | amount | angle | background | barId | bindtype | border | bottom | button
  | childBorder | color | colorclass | command | count | ctype | curve | cvalue | direction
  | duration | durationMs | enabled | excludeTitlebar | exectype | font | fps | height | hiddenState
  | hideBorders | indicator | key | kind | layout | left | mode | modename | modifiers | ms | n
  | noStartupId | number | off | opacity | orientation | output | outputs | paddingPx | pangoMarkup
  | path | pattern | pct | position | radius | release | rightOrRightAndLeft | scale | scope
  | separator | spacing | spec | speed | swapModifier | text | timeout | topOrAll | type | value
  | wholeWindow | width | windowtype | workspace
  deriving DecidableEq, Repr

/-- The rules of each state, in the order of the specification. -/
def ConfigState.rules : ConfigState → List (Rule ConfigState ConfigIdentifier)
  | .initial => [
      .on [.end_] (.goto .initial),
      .on [.error] (.goto .initial),
      .on ["#"] (.goto .ignoreLine),
      .on ["set "] (.goto .ignoreLine),
      .on ["set\t"] (.goto .ignoreLine),
      .on ["set_from_resource"] (.goto .ignoreLine),
      .on ["include"] (.goto .include),
      .into .bindtype ["bindsym", "bindcode", "bind"] (.goto .binding),
      .on ["rounded_corners_radius"] (.goto .roundedCornersRadius),
      .on ["rounded_corners_floating"] (.goto .roundedCornersFloating),
      .on ["rounded_corners_tiling"] (.goto .roundedCornersTiling),
      .on ["rounded_corners"] (.goto .roundedCorners),
      .on ["bar"] (.goto .barbrace),
      .on ["font"] (.goto .font),
      .on ["mode"] (.goto .modename),
      .on ["gaps"] (.goto .gaps),
      .on ["smart_borders"] (.goto .smartBorders),
      .on ["smart_gaps"] (.goto .smartGaps),
      .on ["floating_minimum_size"] (.goto .floatingMinimumSizeWidth),
      .on ["floating_maximum_size"] (.goto .floatingMaximumSizeWidth),
      .on ["floating_modifier"] (.goto .floatingModifier),
      .on ["default_orientation"] (.goto .defaultOrientation),
      .on ["workspace_transition"] (.goto .workspaceTransition),
      .on ["workspace_layout"] (.goto .workspaceLayout),
      .on ["window_animation"] (.goto .windowAnimation),
      .on ["geometry_animation"] (.goto .ignoreLine),
      .on ["bezier"] (.goto .bezier),
      .on ["spring"] (.goto .spring),
      .on ["resize_live_fps"] (.goto .resizeLiveFps),
      .on ["resize_live"] (.goto .resizeLive),
      .on ["scrolling"] (.goto .scrolling),
      .on ["dynamic_workspaces"] (.goto .dynamicWorkspaces),
      .into .windowtype ["default_border", "new_window", "default_floating_border", "new_float"]
        (.goto .defaultBorder),
      .on ["hide_edge_borders"] (.goto .hideEdgeBorders),
      .on ["for_window"] (.goto .forWindow),
      .on ["assign"] (.goto .assign),
      .on ["no_focus"] (.goto .noFocus),
      .on ["focus_follows_mouse"] (.goto .focusFollowsMouse),
      .on ["mouse_warping"] (.goto .mouseWarping),
      .on ["focus_wrapping"] (.goto .focusWrapping),
      .on ["force_focus_wrapping"] (.goto .forceFocusWrapping),
      .on ["force_xinerama", "force-xinerama"] (.goto .forceXinerama),
      .on ["disable_randr15", "disable-randr15"] (.goto .disableRandr15),
      .on ["workspace_auto_back_and_forth"] (.goto .workspaceBackAndForth),
      .on ["fake_outputs", "fake-outputs"] (.goto .fakeOutputs),
      .on ["force_display_urgency_hint"] (.goto .forceDisplayUrgencyHint),
      .on ["focus_on_window_activation"] (.goto .focusOnWindowActivation),
      .on ["title_align"] (.goto .titleAlign),
      .on ["show_marks"] (.goto .showMarks),
      .on ["workspace"] (.goto .workspace),
      .on ["switcher"] (.goto .switcher),
      .on ["ipc_socket", "ipc-socket"] (.goto .ipcSocket),
      .on ["ipc_kill_timeout"] (.goto .ipcKillTimeout),
      .on ["overview"] (.goto .overview),
      .on ["gradient_border"] (.goto .gradientBorder),
      .on ["restart_state"] (.goto .restartState),
      .on ["popup_during_fullscreen"] (.goto .popupDuringFullscreen),
      .on ["tiling_drag"] (.goto .tilingDrag),
      .into .exectype ["exec_always", "exec"] (.goto .exec),
      .into .colorclass ["client.background"] (.goto .colorSingle),
      .into .colorclass ["client.focused_inactive", "client.focused_tab_title", "client.focused",
          "client.unfocused", "client.urgent", "client.placeholder"]
        (.goto .colorBorder)]
  | .ignoreLine => [
      .on [.line] (.goto .initial)]
  | .gaps => [
      .into .scope ["inner", "outer", "horizontal", "vertical", "top", "right", "bottom", "left"]
        (.goto .gapsWithScope)]
  | .gapsWithScope => [
      .into .value [.number] (.goto .gapsEnd)]
  | .gapsEnd => [
      .on ["px"] (.goto .gapsEnd),
      .on [.end_] (.call "cfg_gaps" [.string .workspace, .string .scope, .long .value] .initial)]
  | .switcher => [
      .on ["enabled"] (.call "cfg_switcher" [.text "enabled"] .initial),
      .on ["disabled"] (.call "cfg_switcher" [.text "disabled"] .initial),
      .on ["max_items"] (.goto .switcherMaxItems),
      .on ["preview"] (.goto .switcherPreview)]
  | .switcherMaxItems => [
      .into .n [.number] (.call "cfg_switcher_max_items" [.long .n] .initial)]
  | .switcherPreview => [
      .on ["enabled"] (.call "cfg_switcher_preview" [.text "enabled"] .initial),
      .on ["disabled"] (.call "cfg_switcher_preview" [.text "disabled"] .initial)]
  | .roundedCorners => [
      .into .value [.string] (.call "cfg_rounded_corners_toggle" [.string .value] .initial)]
  | .roundedCornersRadius => [
      .into .radius [.number] (.call "cfg_rounded_corners_radius" [.long .radius] .initial)]
  | .roundedCornersFloating => [
      .into .value [.string] (.call "cfg_rounded_corners_floating" [.string .value] .initial)]
  | .roundedCornersTiling => [
      .into .value [.string] (.call "cfg_rounded_corners_tiling" [.string .value] .initial)]
  | .overview => [
      .on ["enabled"] (.call "cfg_overview_toggle_config" [.text "enabled"] .initial),
      .on ["disabled"] (.call "cfg_overview_toggle_config" [.text "disabled"] .initial),
      .on ["thumbnail_scale"] (.goto .overviewThumbnailScale),
      .on ["thumbnail_blur"] (.goto .overviewThumbnailBlur),
      .on ["spacing"] (.goto .overviewSpacing),
      .on ["animation_duration"] (.goto .overviewAnimationDuration),
      .on ["background_opacity"] (.goto .overviewBackgroundOpacity),
      .on ["background_blur"] (.goto .overviewBackgroundBlur),
      .on ["wallpaper_path"] (.goto .overviewWallpaperPath),
      .on ["live_previews"] (.goto .overviewLivePreviews),
      .on ["particles"] (.goto .overviewParticles),
      .on ["fps"] (.goto .overviewFps),
      .on ["border_color_end"] (.goto .overviewBorderColorEnd),
      .on ["border_color"] (.goto .overviewBorderColor),
      .on ["border_inactive"] (.goto .overviewBorderInactive),
      .on ["border_width"] (.goto .overviewBorderWidth),
      .on ["border_speed"] (.goto .overviewBorderSpeed)]
  | .overviewThumbnailScale => [
      .into .scale [.word] (.call "cfg_overview_thumbnail_scale" [.string .scale] .initial)]
  | .overviewThumbnailBlur => [
      .into .amount [.number] (.call "cfg_overview_thumbnail_blur" [.long .amount] .initial)]
  | .overviewSpacing => [
      .into .spacing [.word] (.call "cfg_overview_spacing" [.string .spacing] .initial)]
  | .overviewAnimationDuration => [
      .into .duration [.word]
        (.call "cfg_overview_animation_duration" [.string .duration] .initial)]
  | .overviewBackgroundOpacity => [
      .into .opacity [.word] (.call "cfg_overview_background_opacity" [.string .opacity] .initial)]
  | .overviewBackgroundBlur => [
      .into .amount [.word] (.call "cfg_overview_background_blur" [.string .amount] .initial)]
  | .overviewWallpaperPath => [
      .into .path [.string] (.call "cfg_overview_wallpaper_path" [.string .path] .initial)]
  | .overviewLivePreviews => [
      .into .value [.word] (.call "cfg_overview_live_previews" [.string .value] .initial)]
  | .overviewParticles => [
      .into .count [.number] (.call "cfg_overview_particles" [.long .count] .initial)]
  | .overviewFps => [
      .into .fps [.number] (.call "cfg_overview_fps" [.long .fps] .initial)]
  | .overviewBorderColor => [
      .into .color [.word] (.call "cfg_overview_border_color" [.string .color] .initial)]
  | .overviewBorderColorEnd => [
      .into .color [.word] (.call "cfg_overview_border_color_end" [.string .color] .initial)]
  | .overviewBorderInactive => [
      .into .color [.word] (.call "cfg_overview_border_inactive" [.string .color] .initial)]
  | .overviewBorderWidth => [
      .into .width [.number] (.call "cfg_overview_border_width" [.long .width] .initial)]
  | .overviewBorderSpeed => [
      .into .speed [.number] (.call "cfg_overview_border_speed" [.long .speed] .initial)]
  | .gradientBorder => [
      .on ["enabled"] (.call "cfg_gradient_border_toggle" [.text "enabled"] .initial),
      .on ["disabled"] (.call "cfg_gradient_border_toggle" [.text "disabled"] .initial),
      .on ["color_start"] (.goto .gradientBorderColorStart),
      .on ["color_end"] (.goto .gradientBorderColorEnd),
      .on ["inactive_start"] (.goto .gradientBorderInactiveStart),
      .on ["inactive_end"] (.goto .gradientBorderInactiveEnd),
      .on ["direction"] (.goto .gradientBorderDirection),
      .on ["angle"] (.goto .gradientBorderAngle),
      .on ["speed"] (.goto .gradientBorderSpeed),
      .on ["fps"] (.goto .gradientBorderFps)]
  | .gradientBorderInactiveStart => [
      .into .color [.word] (.call "cfg_gradient_border_inactive_start" [.string .color] .initial)]
  | .gradientBorderInactiveEnd => [
      .into .color [.word] (.call "cfg_gradient_border_inactive_end" [.string .color] .initial)]
  | .gradientBorderAngle => [
      .into .angle [.number] (.call "cfg_gradient_border_angle" [.long .angle] .initial)]
  | .gradientBorderSpeed => [
      .into .speed [.number] (.call "cfg_gradient_border_speed" [.long .speed] .initial)]
  | .gradientBorderFps => [
      .into .fps [.number] (.call "cfg_gradient_border_fps" [.long .fps] .initial)]
  | .gradientBorderColorStart => [
      .into .color [.word] (.call "cfg_gradient_border_color_start" [.string .color] .initial)]
  | .gradientBorderColorEnd => [
      .into .color [.word] (.call "cfg_gradient_border_color_end" [.string .color] .initial)]
  | .gradientBorderDirection => [
      .into .direction ["horizontal", "vertical", "diagonal"]
        (.call "cfg_gradient_border_direction" [.string .direction] .initial)]
  | .workspaceTransition => [
      .on ["enabled"] (.call "cfg_workspace_transition" [.text "enabled"] .initial),
      .on ["disabled"] (.call "cfg_workspace_transition" [.text "disabled"] .initial),
      .on ["yes"] (.call "cfg_workspace_transition" [.text "enabled"] .initial),
      .on ["no"] (.call "cfg_workspace_transition" [.text "disabled"] .initial),
      .on ["duration"] (.goto .workspaceTransitionDuration),
      .on ["direction"] (.goto .workspaceTransitionDirection),
      .on ["type"] (.goto .workspaceTransitionType),
      .on ["curve"] (.goto .workspaceTransitionCurve),
      .on ["fps"] (.goto .workspaceTransitionFps)]
  | .workspaceTransitionDuration => [
      .into .duration [.number]
        (.call "cfg_workspace_transition_duration" [.long .duration] .initial)]
  | .workspaceTransitionDirection => [
      .into .direction ["horizontal", "vertical"]
        (.call "cfg_workspace_transition_direction" [.string .direction] .initial)]
  | .workspaceTransitionType => [
      .into .type ["slide", "fade", "zoom"]
        (.call "cfg_workspace_transition_type" [.string .type] .initial)]
  | .workspaceTransitionCurve => [
      .into .curve [.word] (.call "cfg_workspace_transition_curve" [.string .curve] .initial)]
  | .workspaceTransitionFps => [
      .into .fps [.number] (.call "cfg_workspace_transition_fps" [.long .fps] .initial)]
  | .windowAnimation => [
      .on ["enabled"] (.call "cfg_window_animation" [.text "enabled"] .initial),
      .on ["disabled"] (.call "cfg_window_animation" [.text "disabled"] .initial),
      .on ["yes"] (.call "cfg_window_animation" [.text "enabled"] .initial),
      .on ["no"] (.call "cfg_window_animation" [.text "disabled"] .initial),
      .on ["duration"] (.goto .windowAnimationDuration),
      .on ["scale"] (.goto .windowAnimationScale),
      .on ["curve"] (.goto .windowAnimationCurve),
      .on ["fps"] (.goto .windowAnimationFps),
      .on ["start_opacity"] (.goto .windowAnimationStartOpacity),
      .on ["opacity"] (.goto .windowAnimationOpacity),
      .on ["close"] (.goto .windowAnimationClose)]
  | .windowAnimationDuration => [
      .into .ms [.number] (.call "cfg_window_animation_duration" [.long .ms] .initial)]
  | .windowAnimationScale => [
      .into .scale [.number] (.call "cfg_window_animation_scale" [.long .scale] .initial)]
  | .windowAnimationCurve => [
      .into .curve [.word] (.call "cfg_window_animation_curve" [.string .curve] .initial)]
  | .windowAnimationFps => [
      .into .fps [.number] (.call "cfg_window_animation_fps" [.long .fps] .initial)]
  | .windowAnimationOpacity => [
      .on ["enabled"] (.call "cfg_window_animation_opacity" [.text "enabled"] .initial),
      .on ["disabled"] (.call "cfg_window_animation_opacity" [.text "disabled"] .initial)]
  | .windowAnimationStartOpacity => [
      .into .pct [.number] (.call "cfg_window_animation_start_opacity" [.long .pct] .initial)]
  | .windowAnimationClose => [
      .on ["enabled"] (.call "cfg_window_animation_close" [.text "enabled"] .initial),
      .on ["disabled"] (.call "cfg_window_animation_close" [.text "disabled"] .initial),
      .on ["duration"] (.goto .windowAnimationCloseDuration),
      .on ["scale"] (.goto .windowAnimationCloseScale),
      .on ["curve"] (.goto .windowAnimationCloseCurve),
      .on ["opacity"] (.goto .windowAnimationCloseOpacity)]
  | .windowAnimationCloseDuration => [
      .into .ms [.number] (.call "cfg_window_animation_close_duration" [.long .ms] .initial)]
  | .windowAnimationCloseScale => [
      .into .scale [.number] (.call "cfg_window_animation_close_scale" [.long .scale] .initial)]
  | .windowAnimationCloseCurve => [
      .into .curve [.word] (.call "cfg_window_animation_close_curve" [.string .curve] .initial)]
  | .windowAnimationCloseOpacity => [
      .into .pct [.number] (.call "cfg_window_animation_close_opacity" [.long .pct] .initial)]
  | .bezier => [
      .into .spec [.string] (.call "cfg_bezier" [.string .spec] .initial)]
  | .spring => [
      .into .spec [.string] (.call "cfg_spring" [.string .spec] .initial)]
  | .resizeLive => [
      .into .value [.word] (.call "cfg_resize_live" [.string .value] .initial)]
  | .resizeLiveFps => [
      .into .fps [.number] (.call "cfg_resize_live_fps" [.long .fps] .initial)]
  | .dynamicWorkspaces => [
      .into .value [.word] (.call "cfg_dynamic_workspaces" [.string .value] .initial)]
  | .scrolling => [
      .on ["width"] (.goto .scrollingWidth),
      .on ["duration"] (.goto .scrollingDuration),
      .on ["curve"] (.goto .scrollingCurve),
      .on ["center_focus"] (.goto .scrollingCenterFocus)]
  | .scrollingWidth => [
      .into .pct [.number] (.call "cfg_scrolling_default_width" [.long .pct] .initial)]
  | .scrollingDuration => [
      .into .ms [.number] (.call "cfg_scrolling_duration" [.long .ms] .initial)]
  | .scrollingCurve => [
      .into .curve [.word] (.call "cfg_scrolling_curve" [.string .curve] .initial)]
  | .scrollingCenterFocus => [
      .on ["enabled"] (.call "cfg_scrolling_center_focus" [.text "enabled"] .initial),
      .on ["disabled"] (.call "cfg_scrolling_center_focus" [.text "disabled"] .initial)]
  | .smartBorders => [
      .into .enabled ["1", "yes", "true", "on", "enable", "active"]
        (.call "cfg_smart_borders" [.string .enabled] .initial),
      .into .enabled ["no_gaps"] (.call "cfg_smart_borders" [.string .enabled] .initial)]
  | .smartGaps => [
      .into .enabled ["1", "yes", "true", "on", "enable", "active"]
        (.call "cfg_smart_gaps" [.string .enabled] .initial),
      .into .enabled ["0", "no", "false", "off", "disable", "inactive"]
        (.call "cfg_smart_gaps" [.string .enabled] .initial),
      .into .enabled ["inverse_outer"] (.call "cfg_smart_gaps" [.string .enabled] .initial)]
  | .include => [
      .into .pattern [.string] (.call "cfg_include" [.string .pattern] .initial)]
  | .floatingMinimumSizeWidth => [
      .into .width [.number] (.goto .floatingMinimumSizeX)]
  | .floatingMinimumSizeX => [
      .on ["x"] (.goto .floatingMinimumSizeHeight)]
  | .floatingMinimumSizeHeight => [
      .into .height [.number]
        (.call "cfg_floating_minimum_size" [.long .width, .long .height] .initial)]
  | .floatingMaximumSizeWidth => [
      .into .width [.number] (.goto .floatingMaximumSizeX)]
  | .floatingMaximumSizeX => [
      .on ["x"] (.goto .floatingMaximumSizeHeight)]
  | .floatingMaximumSizeHeight => [
      .into .height [.number]
        (.call "cfg_floating_maximum_size" [.long .width, .long .height] .initial)]
  | .floatingModifier => [
      .into .modifiers ["Mod1", "Mod2", "Mod3", "Mod4", "Mod5", "Shift", "Control", "Ctrl"]
        (.goto .floatingModifier),
      .on ["+"] (.goto .floatingModifier),
      .on [.end_] (.call "cfg_floating_modifier" [.string .modifiers] .initial)]
  | .tilingDragSwapModifier => [
      .into .modifiers ["Mod1", "Mod2", "Mod3", "Mod4", "Mod5", "Shift", "Control", "Ctrl"]
        (.goto .tilingDragSwapModifier),
      .on ["+"] (.goto .tilingDragSwapModifier),
      .on [.end_] (.call "cfg_tiling_drag_swap_modifier" [.string .modifiers] .initial)]
  | .defaultOrientation => [
      .into .orientation ["horizontal", "vertical", "auto"]
        (.call "cfg_default_orientation" [.string .orientation] .initial)]
  | .workspaceLayout => [
      .into .layout ["default", "stacking", "stacked", "tabbed", "scrolling"]
        (.call "cfg_workspace_layout" [.string .layout] .initial)]
  | .defaultBorder => [
      .into .border ["normal", "pixel"] (.goto .defaultBorderPixels),
      .into .border ["1pixel", "none"]
        (.call "cfg_default_border" [.string .windowtype, .string .border, .int (-1)] .initial)]
  | .defaultBorderPixels => [
      .on [.end_]
        (.call "cfg_default_border" [.string .windowtype, .string .border, .int 2] .initial),
      .into .width [.number] (.goto .defaultBorderPixelsPx)]
  | .defaultBorderPixelsPx => [
      .on ["px"] (.goto .defaultBorderPixelsPx),
      .on [.end_]
        (.call "cfg_default_border" [.string .windowtype, .string .border, .long .width] .initial)]
  | .hideEdgeBorders => [
      .into .hideBorders ["none", "vertical", "horizontal", "both", "smart_no_gaps", "smart"]
        (.call "cfg_hide_edge_borders" [.string .hideBorders] .initial),
      .into .hideBorders ["1", "yes", "true", "on", "enable", "active"]
        (.call "cfg_hide_edge_borders" [.string .hideBorders] .initial)]
  | .forWindow => [
      .on ["["] (.call "cfg_criteria_init" [.state .forWindowCommand] .criteria)]
  | .forWindowCommand => [
      .into .command [.string] (.call "cfg_for_window" [.string .command] .initial)]
  | .assign => [
      .on ["["] (.call "cfg_criteria_init" [.state .assignWorkspace] .criteria)]
  | .assignWorkspace => [
      .on ["\u00e2\u0086\u0092"] (.goto .assignWorkspace),
      .on ["output"] (.goto .assignOutput),
      .on ["workspace"] (.goto .assignWorkspace),
      .on ["number"] (.goto .assignWorkspaceNumber),
      .into .workspace [.string] (.call "cfg_assign" [.string .workspace, .int 0] .initial)]
  | .assignOutput => [
      .into .output [.string] (.call "cfg_assign_output" [.string .output] .initial)]
  | .assignWorkspaceNumber => [
      .into .number [.string] (.call "cfg_assign" [.string .number, .int 1] .initial)]
  | .noFocus => [
      .on ["["] (.call "cfg_criteria_init" [.state .noFocusEnd] .criteria)]
  | .noFocusEnd => [
      .on [.end_] (.call "cfg_no_focus" [] .initial)]
  | .criteria => [
      .into .ctype ["class"] (.goto .criterion),
      .into .ctype ["instance"] (.goto .criterion),
      .into .ctype ["window_role"] (.goto .criterion),
      .into .ctype ["con_id"] (.goto .criterion),
      .into .ctype ["id"] (.goto .criterion),
      .into .ctype ["window_type"] (.goto .criterion),
      .into .ctype ["con_mark"] (.goto .criterion),
      .into .ctype ["title"] (.goto .criterion),
      .into .ctype ["urgent"] (.goto .criterion),
      .into .ctype ["workspace"] (.goto .criterion),
      .into .ctype ["machine"] (.goto .criterion),
      .into .ctype ["floating_from"] (.goto .criterionFrom),
      .into .ctype ["tiling_from"] (.goto .criterionFrom),
      .into .ctype ["tiling", "floating", "all"]
        (.call "cfg_criteria_add" [.string .ctype, .null] .criteria),
      .on ["]"] (.call "cfg_criteria_pop_state" [] .initial)]
  | .criterion => [
      .on ["="] (.goto .criterionStr)]
  | .criterionFrom => [
      .on ["="] (.goto .criterionFromStrStart)]
  | .criterionFromStrStart => [
      .on ["\""] (.goto .criterionFromStr),
      .into .kind ["auto", "user"]
        (.call "cfg_criteria_add" [.string .ctype, .string .kind] .criteria)]
  | .criterionFromStr => [
      .into .kind ["auto", "user"] (.goto .criterionFromStrEnd)]
  | .criterionFromStrEnd => [
      .on ["\""] (.call "cfg_criteria_add" [.string .ctype, .string .kind] .criteria)]
  | .criterionStr => [
      .into .cvalue [.word] (.call "cfg_criteria_add" [.string .ctype, .string .cvalue] .criteria)]
  | .focusFollowsMouse => [
      .into .value [.word] (.call "cfg_focus_follows_mouse" [.string .value] .initial)]
  | .mouseWarping => [
      .into .value ["none", "output"] (.call "cfg_mouse_warping" [.string .value] .initial)]
  | .focusWrapping => [
      .into .value ["1", "yes", "true", "on", "enable", "active", "0", "no", "false", "off",
          "disable", "inactive", "force", "workspace"]
        (.call "cfg_focus_wrapping" [.string .value] .initial)]
  | .forceFocusWrapping => [
      .into .value [.word] (.call "cfg_force_focus_wrapping" [.string .value] .initial)]
  | .forceXinerama => [
      .into .value [.word] (.call "cfg_force_xinerama" [.string .value] .initial)]
  | .disableRandr15 => [
      .into .value [.word] (.call "cfg_disable_randr15" [.string .value] .initial)]
  | .workspaceBackAndForth => [
      .into .value [.word] (.call "cfg_workspace_back_and_forth" [.string .value] .initial)]
  | .fakeOutputs => [
      .into .outputs [.string] (.call "cfg_fake_outputs" [.string .outputs] .initial)]
  | .forceDisplayUrgencyHint => [
      .into .durationMs [.number] (.goto .forceDisplayUrgencyHintMs)]
  | .titleAlign => [
      .into .alignment ["left", "center", "right"]
        (.call "cfg_title_align" [.string .alignment] .initial)]
  | .showMarks => [
      .into .value [.word] (.call "cfg_show_marks" [.string .value] .initial)]
  | .forceDisplayUrgencyHintMs => [
      .on ["ms"] (.goto .forceDisplayUrgencyHintMs),
      .on [.end_] (.call "cfg_force_display_urgency_hint" [.long .durationMs] .initial)]
  | .focusOnWindowActivation => [
      .into .mode [.word] (.call "cfg_focus_on_window_activation" [.string .mode] .initial)]
  | .workspace => [
      .into .workspace [.word] (.goto .workspaceCommand)]
  | .workspaceCommand => [
      .on ["output"] (.goto .workspaceOutputWord),
      .on ["gaps"] (.goto .gaps)]
  | .workspaceOutputWord => [
      .into .output [.word]
        (.call "cfg_workspace" [.string .workspace, .string .output] .workspaceOutputWord),
      .on [.end_] (.goto .initial)]
  | .ipcSocket => [
      .into .path [.string] (.call "cfg_ipc_socket" [.string .path] .initial)]
  | .ipcKillTimeout => [
      .into .timeout [.number] (.call "cfg_ipc_kill_timeout" [.long .timeout] .initial)]
  | .restartState => [
      .into .path [.string] (.call "cfg_restart_state" [.string .path] .initial)]
  | .popupDuringFullscreen => [
      .into .value ["ignore", "leave_fullscreen", "all", "smart"]
        (.call "cfg_popup_during_fullscreen" [.string .value] .initial)]
  | .tilingDragMode => [
      .into .value ["modifier", "titlebar"] (.goto .tilingDragMode),
      .on [.end_] (.call "cfg_tiling_drag" [.string .value] .initial)]
  | .tilingDrag => [
      .into .off ["0", "no", "false", "off", "disable", "inactive"]
        (.call "cfg_tiling_drag" [.string .off] .initial),
      .into .swapModifier ["swap_modifier"] (.goto .tilingDragSwapModifier),
      .into .value ["modifier", "titlebar"] (.goto .tilingDragMode)]
  | .colorSingle => [
      .into .color [.word]
        (.call "cfg_color_single" [.string .colorclass, .string .color] .initial)]
  | .colorBorder => [
      .into .border [.word] (.goto .colorBackground)]
  | .colorBackground => [
      .into .background [.word] (.goto .colorText)]
  | .colorText => [
      .into .text [.word] (.goto .colorIndicator)]
  | .colorIndicator => [
      .into .indicator [.word] (.goto .colorChildBorder),
      .on [.end_]
        (.call "cfg_color"
          [.string .colorclass, .string .border, .string .background, .string .text, .null, .null]
          .initial)]
  | .colorChildBorder => [
      .into .childBorder [.word]
        (.call "cfg_color"
          [.string .colorclass, .string .border, .string .background, .string .text,
          .string .indicator, .string .childBorder] .initial),
      .on [.end_]
        (.call "cfg_color"
          [.string .colorclass, .string .border, .string .background, .string .text,
          .string .indicator, .null] .initial)]
  | .exec => [
      .into .noStartupId ["--no-startup-id"] (.goto .exec),
      .into .command [.string]
        (.call "cfg_exec" [.string .exectype, .string .noStartupId, .string .command] .initial)]
  | .font => [
      .into .font [.string] (.call "cfg_font" [.string .font] .initial)]
  | .binding => [
      .into .release ["--release"] (.goto .binding),
      .into .border ["--border"] (.goto .binding),
      .into .wholeWindow ["--whole-window"] (.goto .binding),
      .into .excludeTitlebar ["--exclude-titlebar"] (.goto .binding),
      .into .modifiers ["Mod1", "Mod2", "Mod3", "Mod4", "Mod5", "Shift", "Control", "Ctrl",
          "Mode_switch", "Group1", "Group2", "Group3", "Group4", "$mod"]
        (.goto .binding),
      .on ["+"] (.goto .binding),
      .into .key [.word] (.goto .bindcommand)]
  | .bindcommand => [
      .into .release ["--release"] (.goto .bindcommand),
      .into .border ["--border"] (.goto .bindcommand),
      .into .wholeWindow ["--whole-window"] (.goto .bindcommand),
      .into .excludeTitlebar ["--exclude-titlebar"] (.goto .bindcommand),
      .into .command [.string]
        (.call "cfg_binding"
          [.string .bindtype, .string .modifiers, .string .key, .string .release, .string .border,
          .string .wholeWindow, .string .excludeTitlebar, .string .command] .initial)]
  | .modename => [
      .into .pangoMarkup ["--pango_markup"] (.goto .modename),
      .into .modename [.word]
        (.call "cfg_enter_mode" [.string .pangoMarkup, .string .modename] .modebrace)]
  | .modebrace => [
      .on [.end_] (.goto .modebrace),
      .on ["\x7b"] (.goto .mode)]
  | .mode => [
      .on [.end_] (.goto .mode),
      .on [.error] (.goto .mode),
      .on ["#"] (.goto .modeIgnoreLine),
      .on ["set"] (.goto .modeIgnoreLine),
      .into .bindtype ["bindsym", "bindcode", "bind"] (.goto .modeBinding),
      .on ["\x7d"] (.goto .initial)]
  | .modeIgnoreLine => [
      .on [.line] (.goto .mode)]
  | .modeBinding => [
      .into .release ["--release"] (.goto .modeBinding),
      .into .border ["--border"] (.goto .modeBinding),
      .into .wholeWindow ["--whole-window"] (.goto .modeBinding),
      .into .excludeTitlebar ["--exclude-titlebar"] (.goto .modeBinding),
      .into .modifiers ["Mod1", "Mod2", "Mod3", "Mod4", "Mod5", "Shift", "Control", "Ctrl",
          "Mode_switch", "Group1", "Group2", "Group3", "Group4", "$mod"]
        (.goto .modeBinding),
      .on ["+"] (.goto .modeBinding),
      .into .key [.word] (.goto .modeBindcommand)]
  | .modeBindcommand => [
      .into .release ["--release"] (.goto .modeBindcommand),
      .into .border ["--border"] (.goto .modeBindcommand),
      .into .wholeWindow ["--whole-window"] (.goto .modeBindcommand),
      .into .excludeTitlebar ["--exclude-titlebar"] (.goto .modeBindcommand),
      .into .command [.string]
        (.call "cfg_mode_binding"
          [.string .bindtype, .string .modifiers, .string .key, .string .release, .string .border,
          .string .wholeWindow, .string .excludeTitlebar, .string .command] .mode)]
  | .barbrace => [
      .on [.end_] (.goto .barbrace),
      .on ["\x7b"] (.call "cfg_bar_start" [] .bar)]
  | .bar => [
      .on [.end_] (.goto .bar),
      .on [.error] (.goto .bar),
      .on ["#"] (.goto .barIgnoreLine),
      .on ["set"] (.goto .barIgnoreLine),
      .on ["i3bar_command"] (.goto .barBarCommand),
      .on ["status_command"] (.goto .barStatusCommand),
      .on ["workspace_command"] (.goto .barWorkspaceCommand),
      .on ["socket_path"] (.goto .barSocketPath),
      .on ["mode"] (.goto .barMode),
      .on ["hidden_state"] (.goto .barHiddenState),
      .on ["id"] (.goto .barId),
      .on ["modifier"] (.goto .barModifier),
      .on ["wheel_up_cmd"] (.goto .barWheelUpCmd),
      .on ["wheel_down_cmd"] (.goto .barWheelDownCmd),
      .on ["bindsym"] (.goto .barBindsym),
      .on ["position"] (.goto .barPosition),
      .on ["output"] (.goto .barOutput),
      .on ["tray_output"] (.goto .barTrayOutput),
      .on ["tray_padding"] (.goto .barTrayPadding),
      .on ["font"] (.goto .barFont),
      .on ["separator_symbol"] (.goto .barSeparatorSymbol),
      .on ["binding_mode_indicator"] (.goto .barBindingModeIndicator),
      .on ["workspace_buttons"] (.goto .barWorkspaceButtons),
      .on ["workspace_min_width"] (.goto .barWorkspaceMinWidth),
      .on ["strip_workspace_numbers"] (.goto .barStripWorkspaceNumbers),
      .on ["strip_workspace_name"] (.goto .barStripWorkspaceName),
      .on ["verbose"] (.goto .barVerbose),
      .on ["height"] (.goto .barHeight),
      .on ["padding"] (.goto .barPadding),
      .on ["colors"] (.goto .barColorsBrace),
      .on ["\x7d"] (.call "cfg_bar_finish" [] .initial)]
  | .barIgnoreLine => [
      .on [.line] (.goto .bar)]
  | .barBarCommand => [
      .into .command [.string] (.call "cfg_bar_i3bar_command" [.string .command] .bar)]
  | .barStatusCommand => [
      .into .command [.string] (.call "cfg_bar_status_command" [.string .command] .bar)]
  | .barWorkspaceCommand => [
      .into .command [.string] (.call "cfg_bar_workspace_command" [.string .command] .bar)]
  | .barSocketPath => [
      .into .path [.string] (.call "cfg_bar_socket_path" [.string .path] .bar)]
  | .barMode => [
      .into .mode ["dock", "hide", "invisible"] (.call "cfg_bar_mode" [.string .mode] .bar)]
  | .barHiddenState => [
      .into .hiddenState ["hide", "show"]
        (.call "cfg_bar_hidden_state" [.string .hiddenState] .bar)]
  | .barId => [
      .into .barId [.word] (.call "cfg_bar_id" [.string .barId] .bar)]
  | .barModifier => [
      .on ["off", "none"] (.call "cfg_bar_modifier" [.null] .bar),
      .into .modifiers ["Mod1", "Mod2", "Mod3", "Mod4", "Mod5", "Shift", "Control", "Ctrl"]
        (.goto .barModifier),
      .on ["+"] (.goto .barModifier),
      .on [.end_] (.call "cfg_bar_modifier" [.string .modifiers] .bar)]
  | .barWheelUpCmd => [
      .into .command [.string] (.call "cfg_bar_wheel_up_cmd" [.string .command] .bar)]
  | .barWheelDownCmd => [
      .into .command [.string] (.call "cfg_bar_wheel_down_cmd" [.string .command] .bar)]
  | .barBindsym => [
      .into .release ["--release"] (.goto .barBindsym),
      .into .button [.word] (.goto .barBindsymCommand)]
  | .barBindsymCommand => [
      .into .release ["--release"] (.goto .barBindsymCommand),
      .into .command [.string]
        (.call "cfg_bar_bindsym" [.string .button, .string .release, .string .command] .bar)]
  | .barPosition => [
      .into .position ["top", "bottom"] (.call "cfg_bar_position" [.string .position] .bar)]
  | .barOutput => [
      .into .output [.word] (.call "cfg_bar_output" [.string .output] .bar)]
  | .barTrayOutput => [
      .into .output [.word] (.call "cfg_bar_tray_output" [.string .output] .bar)]
  | .barTrayPadding => [
      .into .paddingPx [.number] (.goto .barTrayPaddingPx)]
  | .barTrayPaddingPx => [
      .on ["px"] (.goto .barTrayPaddingPx),
      .on [.end_] (.call "cfg_bar_tray_padding" [.long .paddingPx] .bar)]
  | .barFont => [
      .into .font [.string] (.call "cfg_bar_font" [.string .font] .bar)]
  | .barSeparatorSymbol => [
      .into .separator [.string] (.call "cfg_bar_separator_symbol" [.string .separator] .bar)]
  | .barBindingModeIndicator => [
      .into .value [.word] (.call "cfg_bar_binding_mode_indicator" [.string .value] .bar)]
  | .barWorkspaceButtons => [
      .into .value [.word] (.call "cfg_bar_workspace_buttons" [.string .value] .bar)]
  | .barWorkspaceMinWidth => [
      .into .width [.number] (.goto .barWorkspaceMinWidthPx)]
  | .barWorkspaceMinWidthPx => [
      .on ["px"] (.goto .barWorkspaceMinWidthPx),
      .on [.end_] (.call "cfg_bar_workspace_min_width" [.long .width] .bar)]
  | .barStripWorkspaceNumbers => [
      .into .value [.word] (.call "cfg_bar_strip_workspace_numbers" [.string .value] .bar)]
  | .barStripWorkspaceName => [
      .into .value [.word] (.call "cfg_bar_strip_workspace_name" [.string .value] .bar)]
  | .barVerbose => [
      .into .value [.word] (.call "cfg_bar_verbose" [.string .value] .bar)]
  | .barHeight => [
      .into .value [.number] (.call "cfg_bar_height" [.long .value] .bar)]
  | .barPadding => [
      .into .topOrAll [.number] (.goto .barPaddingTop)]
  | .barPaddingTop => [
      .on ["px"] (.goto .barPaddingTop),
      .into .rightOrRightAndLeft [.number] (.goto .barPaddingRight),
      .on [.end_] (.call "cfg_bar_padding_one" [.long .topOrAll] .bar)]
  | .barPaddingRight => [
      .on ["px"] (.goto .barPaddingRight),
      .into .bottom [.number] (.goto .barPaddingBottom),
      .on [.end_] (.call "cfg_bar_padding_two" [.long .topOrAll, .long .rightOrRightAndLeft] .bar)]
  | .barPaddingBottom => [
      .on ["px"] (.goto .barPaddingBottom),
      .into .left [.number] (.goto .barPaddingLeft),
      .on [.end_]
        (.call "cfg_bar_padding_three"
          [.long .topOrAll, .long .rightOrRightAndLeft, .long .bottom] .bar)]
  | .barPaddingLeft => [
      .on ["px"] (.goto .barPaddingLeft),
      .on [.end_]
        (.call "cfg_bar_padding_four"
          [.long .topOrAll, .long .rightOrRightAndLeft, .long .bottom, .long .left] .bar)]
  | .barColorsBrace => [
      .on [.end_] (.goto .barColorsBrace),
      .on ["\x7b"] (.goto .barColors)]
  | .barColors => [
      .on [.end_] (.goto .barColors),
      .on ["#"] (.goto .barColorsIgnoreLine),
      .on ["set"] (.goto .barColorsIgnoreLine),
      .into .colorclass ["background", "statusline", "separator", "focused_background",
          "focused_statusline", "focused_separator"]
        (.goto .barColorsSingle),
      .into .colorclass ["focused_workspace", "active_workspace", "inactive_workspace",
          "urgent_workspace", "binding_mode"]
        (.goto .barColorsBorder),
      .on ["\x7d"] (.goto .bar)]
  | .barColorsIgnoreLine => [
      .on [.line] (.goto .barColors)]
  | .barColorsSingle => [
      .into .color [.word]
        (.call "cfg_bar_color_single" [.string .colorclass, .string .color] .barColors)]
  | .barColorsBorder => [
      .into .border [.word] (.goto .barColorsBackground)]
  | .barColorsBackground => [
      .into .background [.word] (.goto .barColorsText)]
  | .barColorsText => [
      .on [.end_]
        (.call "cfg_bar_color"
          [.string .colorclass, .string .border, .string .background, .null] .barColors),
      .into .text [.word]
        (.call "cfg_bar_color"
          [.string .colorclass, .string .border, .string .background, .string .text] .barColors)]

/-- The tokens of each state. -/
def ConfigState.tokens (s : ConfigState) : List (Token ConfigState ConfigIdentifier) :=
  s.rules.flatMap Rule.tokens

end I3.Parser
