/-
**Background tasks and their notifications.**

A background task is persisted, so a new process finds the tasks of the previous one: the ghosts.
A ghost that was still running is lost.  The end of a task is told by a notification, a message with
an origin that names the task and how it ended; the key of the origin tells which notifications have
been delivered.

The module embeds the part of `agent/background/index.ts` that loads the tasks and builds their
notifications, and `agent/context/notification-xml.ts`.

Main definitions:

* `BackgroundTaskInfo`, `GhostMap` — the tasks of the previous process;
* `GhostMap.markLoadedTasksLost`;
* `notificationKey`, `buildBackgroundTaskNotification` — a notification.
-/

import NoriCode.TurnFlow
import Mathlib.Data.List.Nodup

namespace NoriCode

/-! ### Tasks -/

inductive BackgroundTaskStatus where
  | running
  | completed
  | failed
  | timedOut
  | killed
  | lost
  deriving DecidableEq

namespace BackgroundTaskStatus

def text : BackgroundTaskStatus → String
  | running => "running"
  | completed => "completed"
  | failed => "failed"
  | timedOut => "timed_out"
  | killed => "killed"
  | lost => "lost"

/-- `isBackgroundTaskTerminal`. -/
def isTerminal (status : BackgroundTaskStatus) : Bool := status ≠ running

end BackgroundTaskStatus

inductive BackgroundTaskKind where
  | process
  | question
  deriving DecidableEq

def BackgroundTaskKind.text : BackgroundTaskKind → String
  | process => "process"
  | question => "question"

structure BackgroundTaskInfo where
  taskId : String
  kind : BackgroundTaskKind
  description : String
  status : BackgroundTaskStatus
  detached : Option Bool := none
  stopReason : Option String := none
  terminalNotificationSuppressed : Option Bool := none
  deriving DecidableEq

/-- The map `ghosts`, in its order: the tasks of the previous process, by their ids. -/
structure GhostMap where
  infos : List BackgroundTaskInfo := []
  nodup : (infos.map (·.taskId)).Nodup := by exact List.nodup_nil

namespace GhostMap

/-- `ghosts.set(info.taskId, info)`: a task that is there keeps its place. -/
def set (g : GhostMap) (info : BackgroundTaskInfo) : GhostMap :=
  if h : info.taskId ∈ g.infos.map (·.taskId) then
    { infos := g.infos.map fun i => if i.taskId = info.taskId then info else i
      nodup := by
        have hids : (g.infos.map fun i => if i.taskId = info.taskId then info else i).map
            (·.taskId) = g.infos.map (·.taskId) := by
          rw [List.map_map]
          refine List.map_congr_left fun i _ => ?_
          by_cases hi : i.taskId = info.taskId <;> simp [hi]
        exact hids ▸ g.nodup }
  else
    { infos := g.infos ++ [info]
      nodup := by
        rw [List.map_append]
        exact g.nodup.append (List.nodup_singleton _) (by simpa using h) }

/-- `ghosts.get(taskId)`. -/
def get (g : GhostMap) (taskId : String) : Option BackgroundTaskInfo :=
  g.infos.find? (·.taskId = taskId)

theorem get_of_mem {g : GhostMap} {info : BackgroundTaskInfo} (h : info ∈ g.infos) :
    g.get info.taskId = some info := by
  unfold get
  cases hfind : g.infos.find? (·.taskId = info.taskId) with
  | none => simpa using List.find?_eq_none.1 hfind info h
  | some found =>
    have hid := List.find?_some hfind
    have hmem := List.mem_of_find?_eq_some hfind
    exact congrArg some (List.inj_on_of_nodup_map g.nodup hmem h (of_decide_eq_true hid))

/-- The tasks a new process finds; none of them is alive. -/
def loadFromDisk (persisted : List BackgroundTaskInfo) : GhostMap :=
  persisted.foldl set {}

/-- A task that was still running is lost. -/
def markLost (info : BackgroundTaskInfo) : BackgroundTaskInfo :=
  if info.status.isTerminal then info else { info with status := .lost }

theorem markLost_taskId (info : BackgroundTaskInfo) : (markLost info).taskId = info.taskId := by
  unfold markLost
  split_ifs <;> rfl

theorem markLost_isTerminal (info : BackgroundTaskInfo) :
    (markLost info).status.isTerminal = true := by
  unfold markLost
  split_ifs with h
  · exact h
  · rfl

def markLoadedTasksLost (g : GhostMap) : GhostMap where
  infos := g.infos.map markLost
  nodup := by
    have hids : (fun info : BackgroundTaskInfo => info.taskId) ∘ markLost = (·.taskId) :=
      funext markLost_taskId
    rw [List.map_map, hids]
    exact g.nodup

/-- `isTerminalNotificationSuppressed`, as far as ghosts are concerned. -/
def isTerminalNotificationSuppressed (g : GhostMap) (taskId : String) : Bool :=
  (g.get taskId).any (·.terminalNotificationSuppressed == some true)

end GhostMap

/-! ### Notifications -/

/-- `notificationKey`, of the fields of the origin of a notification. -/
def notificationKey (taskId status notificationId : String) : String :=
  taskId ++ "\x00" ++ status ++ "\x00" ++ notificationId

/-- The key of the notification that a message or an input with this origin is. -/
def PromptOrigin.notificationKey (origin : PromptOrigin) : Option String :=
  match origin.kind with
  | .backgroundTask taskId status notificationId =>
    some (NoriCode.notificationKey taskId status notificationId)
  | _ => none

def ContextMessage.notificationKey (m : ContextMessage) : Option String :=
  m.origin.bind PromptOrigin.notificationKey

namespace BackgroundTaskInfo

def notificationId (info : BackgroundTaskInfo) : String :=
  "task:" ++ info.taskId ++ ":" ++ info.status.text

/-- The origin of the notification of a task. -/
def origin (info : BackgroundTaskInfo) : PromptOrigin :=
  ⟨.backgroundTask info.taskId info.status.text info.notificationId, none⟩

def key (info : BackgroundTaskInfo) : String :=
  NoriCode.notificationKey info.taskId info.status.text info.notificationId

theorem notificationKey_origin (info : BackgroundTaskInfo) :
    info.origin.notificationKey = some info.key := rfl

end BackgroundTaskInfo

structure BackgroundTaskOutputSnapshot where
  outputPath : Option String := none
  outputSizeBytes : ℕ := 0
  previewBytes : ℕ := 0
  truncated : Bool := false
  fullOutputAvailable : Bool := false
  preview : String := ""

/-- `input.replaceAll(c, replacement(c))` for the characters that have a replacement. -/
def replaceChars (replacement : Char → String) (input : String) : String :=
  String.join (input.toList.map replacement)

def escapeXmlAttr : String → String :=
  replaceChars fun c =>
    if c = '&' then "&amp;" else if c = '"' then "&quot;" else String.singleton c

def escapeXml : String → String :=
  replaceChars fun c =>
    if c = '&' then "&amp;"
    else if c = '<' then "&lt;"
    else if c = '>' then "&gt;"
    else if c = '"' then "&quot;"
    else String.singleton c

def renderOutputFileBlock (outputPath : String) (outputSizeBytes : ℕ) : String :=
  "\n".intercalate
    ["<output-file path=\"" ++ escapeXmlAttr outputPath ++ "\" bytes=\"" ++
        toString outputSizeBytes ++ "\">",
      "Read the output file to retrieve the result: " ++ escapeXml outputPath,
      "</output-file>"]

def renderOutputPreviewBlock (output : BackgroundTaskOutputSnapshot) : String :=
  "\n".intercalate
    ["<output-preview bytes=\"" ++ toString output.previewBytes ++ "\" total_bytes=\"" ++
        toString output.outputSizeBytes ++ "\" truncated=\"" ++ toString output.truncated ++ "\">",
      if output.truncated then
        "Showing the last " ++ toString output.previewBytes ++
          " bytes. No persisted full output is available."
      else
        "No persisted full output is available; " ++
          "this preview is the currently buffered task output.",
      escapeXml output.preview,
      "</output-preview>"]

def backgroundTaskNotificationChildren (output : BackgroundTaskOutputSnapshot) : List String :=
  match output.fullOutputAvailable, output.outputPath with
  | true, some path => [renderOutputFileBlock path output.outputSizeBytes]
  | _, _ => if output.preview.toList.length = 0 then [] else [renderOutputPreviewBlock output]

def buildBackgroundTaskNotificationBody (info : BackgroundTaskInfo) : String :=
  if info.status = .timedOut then info.description ++ " timed out."
  else
    match info.stopReason.filter (·.toList.length ≠ 0) with
    | some stopReason =>
      info.description ++ " " ++
        (if info.status = .killed then "was killed" else info.status.text) ++ ": " ++
        stopReason ++ "."
    | none => info.description ++ " " ++ info.status.text ++ "."

/-- `stringAttr`. -/
def notificationAttr (value : String) : String :=
  if value.toList.length = 0 then "unknown" else escapeXmlAttr value

/-- `renderNotificationXml` of the notification of a task; lines with nothing in them are left
out. -/
def renderNotificationXml (info : BackgroundTaskInfo) (children : List String) : String :=
  let title := "Background " ++ info.kind.text ++ " " ++ info.status.text
  let severity := if info.status = .completed then "info" else "warning"
  let body := buildBackgroundTaskNotificationBody info
  "\n".intercalate
    (["<notification id=\"" ++ notificationAttr info.notificationId ++
          "\" category=\"task\" type=\"" ++ notificationAttr ("task." ++ info.status.text) ++
          "\" source_kind=\"background_task\" source_id=\"" ++
          notificationAttr info.taskId ++ "\">",
        "Title: " ++ title, "Severity: " ++ severity] ++
      (body :: children).filter (·.toList.length ≠ 0) ++ ["</notification>"])

/-- The notification of a task, as input of the agent. -/
def buildBackgroundTaskNotification (info : BackgroundTaskInfo)
    (output : BackgroundTaskOutputSnapshot) : BufferedSteer where
  input :=
    [.text ("\n".intercalate ["<system-reminder>",
      renderNotificationXml info (backgroundTaskNotificationChildren output),
      "</system-reminder>"])]
  origin := info.origin

end NoriCode
