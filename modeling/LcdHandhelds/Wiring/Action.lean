/-!
What a switch of a handheld does, whatever name the driver source has for it. `Action.ofToken?`
reads the source's token, `Action.name` is the spelling in the manifest.
-/
namespace LcdHandhelds

inductive Action where
  | joyUp | joyDown | joyLeft | joyRight
  | leftJoyUp | leftJoyDown | leftJoyLeft | leftJoyRight
  | rightJoyUp | rightJoyDown | rightJoyLeft | rightJoyRight
  | button1 | button2 | button3 | button4 | button5 | button6 | button7 | button8
  | select | start1 | start2 | service1 | service2
  | volumeDown | powerOn | powerOff
  /-- Known, but no reader of a manifest handles keypads. -/
  | keypad
  /-- Known, but without a fixed meaning. -/
  | custom
  | unused
  deriving DecidableEq, Repr

namespace Action

/-- The spelling in a manifest. -/
def name : Action → String
  | joyUp => "joyUp"
  | joyDown => "joyDown"
  | joyLeft => "joyLeft"
  | joyRight => "joyRight"
  | leftJoyUp => "leftJoyUp"
  | leftJoyDown => "leftJoyDown"
  | leftJoyLeft => "leftJoyLeft"
  | leftJoyRight => "leftJoyRight"
  | rightJoyUp => "rightJoyUp"
  | rightJoyDown => "rightJoyDown"
  | rightJoyLeft => "rightJoyLeft"
  | rightJoyRight => "rightJoyRight"
  | button1 => "button1"
  | button2 => "button2"
  | button3 => "button3"
  | button4 => "button4"
  | button5 => "button5"
  | button6 => "button6"
  | button7 => "button7"
  | button8 => "button8"
  | select => "select"
  | start1 => "start1"
  | start2 => "start2"
  | service1 => "service1"
  | service2 => "service2"
  | volumeDown => "volumeDown"
  | powerOn => "powerOn"
  | powerOff => "powerOff"
  | keypad => "keypad"
  | custom => "custom"
  | unused => "unused"

def all : List Action :=
  [joyUp, joyDown, joyLeft, joyRight, leftJoyUp, leftJoyDown, leftJoyLeft, leftJoyRight,
    rightJoyUp, rightJoyDown, rightJoyLeft, rightJoyRight, button1, button2, button3, button4,
    button5, button6, button7, button8, select, start1, start2, service1, service2, volumeDown,
    powerOn, powerOff, keypad, custom, unused]

def ofName? (text : String) : Option Action :=
  all.find? fun a => a.name = text

theorem ofName?_name (a : Action) : ofName? a.name = some a := by
  cases a <;> decide

/-- The tokens of the driver source. A machine for one player writes a start button unnumbered. -/
def tokens : List (String × Action) :=
  [("IPT_JOYSTICK_UP", joyUp), ("IPT_JOYSTICK_DOWN", joyDown),
    ("IPT_JOYSTICK_LEFT", joyLeft), ("IPT_JOYSTICK_RIGHT", joyRight),
    ("IPT_JOYSTICKLEFT_UP", leftJoyUp), ("IPT_JOYSTICKLEFT_DOWN", leftJoyDown),
    ("IPT_JOYSTICKLEFT_LEFT", leftJoyLeft), ("IPT_JOYSTICKLEFT_RIGHT", leftJoyRight),
    ("IPT_JOYSTICKRIGHT_UP", rightJoyUp), ("IPT_JOYSTICKRIGHT_DOWN", rightJoyDown),
    ("IPT_JOYSTICKRIGHT_LEFT", rightJoyLeft), ("IPT_JOYSTICKRIGHT_RIGHT", rightJoyRight),
    ("IPT_BUTTON1", button1), ("IPT_BUTTON2", button2), ("IPT_BUTTON3", button3),
    ("IPT_BUTTON4", button4), ("IPT_BUTTON5", button5), ("IPT_BUTTON6", button6),
    ("IPT_BUTTON7", button7), ("IPT_BUTTON8", button8), ("IPT_SELECT", select),
    ("IPT_START", start1), ("IPT_START1", start1), ("IPT_START2", start2),
    ("IPT_SERVICE1", service1), ("IPT_SERVICE2", service2),
    ("IPT_VOLUME_DOWN", volumeDown), ("IPT_POWER_ON", powerOn), ("IPT_POWER_OFF", powerOff),
    ("IPT_KEYPAD", keypad), ("IPT_CUSTOM", custom), ("IPT_UNUSED", unused)]

/-- The action of a token; none outside the vocabulary. -/
def ofToken? (token : String) : Option Action :=
  tokens.lookup token

end Action

end LcdHandhelds
