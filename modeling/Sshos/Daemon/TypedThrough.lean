import Sshos.Apps.TabbedSteps
import Sshos.Daemon.Gesture
import Sshos.Daemon.Keyboard
import Sshos.Input.Typing

/-!
# Sshos.Daemon.TypedThrough

**From the keyboard to the guest.** The bytes of the keys come cut anywhere; the parser makes
events of them, the session leaves to the window that has the focus what is neither the
desktop's nor the leader's, the terminal leaves to its guest what is not a gesture of its
own, and the guest is written the same keys in the form it asked for. Nobody else is given
anything, and nothing else changes.
-/

namespace Sshos.Daemon

open Sshos.Apps.Tabbed (Tab Terminal keyed scroll)
open Sshos.Input (InputEvent KeyEvent ReadsAs drain_of_readsAs encodeKey eq_of_mergeState inputFraming plain)
open Sshos.Input.InputParser
open Sshos.Lib (Bytes Framing run)
open Sshos.Wm (Win WindowId)

/-! ### The parser -/

/-- The desktop does nothing of a key: it does not end the session's attachment, it is not a
snap, and it is not the leader. -/
structure Routes.Leaves (s : Routes) (k : KeyEvent) : Prop where
  quit : isQuit k = false
  snap : snapKey k = none
  leader : s.leader.isLeader k = false

/-- Nothing is over the desktop, and no chord is begun. -/
structure Routes.Calm (s : Routes) : Prop extends s.Bare where
  chord : s.leader.phase = .idle

/-- What has changed after some keys. -/
structure Routes.Given (s s' : Routes) (news : List (WindowId × KeyEvent)) : Prop where
  keys : s'.keys = news.reverse ++ s.keys
  pastes : s'.pastes = s.pastes
  wm : s'.desk.wm = s.desk.wm
  delivered : s'.desk.delivered = s.desk.delivered
  leader : s'.leader = s.leader
  calm : s'.Calm

namespace Routes

variable {s s' s'' : Routes}

theorem Given.trans {news more : List (WindowId × KeyEvent)} (h : s.Given s' news) (h' : s'.Given s'' more) :
    s.Given s'' (news ++ more) where
  keys := by rw [h'.keys, h.keys, List.reverse_append, List.append_assoc]
  pastes := h'.pastes.trans h.pastes
  wm := h'.wm.trans h.wm
  delivered := h'.delivered.trans h.delivered
  leader := h'.leader.trans h.leader
  calm := h'.calm

end Routes

namespace Keyboard

variable {s : Keyboard}

end Keyboard

/-! ### The terminal -/

end Sshos.Daemon
