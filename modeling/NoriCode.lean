import NoriCode.ProjectorAlternation
import NoriCode.CompactionSlot
import NoriCode.ResumeNotifications
import NoriCode.PromptPlaces
import NoriCode.GoalReplay
import NoriCode.SteerBuffer
import NoriCode.ToolDedupResults
import NoriCode.ToolCallBatchRun
import NoriCode.CronCalendar
import NoriCode.GoalRewind
import NoriCode.RecordedCalls
import NoriCode.TagAcceptance
import NoriCode.FileWriteLock
import NoriCode.SessionLifecycle
import NoriCode.BackgroundSettlement
import NoriCode.MountMutation
import NoriCode.DiscussLock
import NoriCode.TeamLease
import NoriCode.DiscussionDelivery
import NoriCode.DiscussionTree
import NoriCode.ConfigWrites
import NoriCode.WorkspaceRewind
import NoriCode.ServerLock
import NoriCode.SnapshotRead
import NoriCode.MessageService
import NoriCode.ToolResultText
import NoriCode.ProjectorBlank
import NoriCode.UndoLimit
import NoriCode.TerminalStream
import NoriCode.InjectionPlaces
import NoriCode.SessionStore
import NoriCode.TokenRefresh
import NoriCode.PermissionPolicies
import NoriCode.CustomMetadata
import NoriCode.MountPaths
import NoriCode.WireAppend
import NoriCode.EventJournal
import NoriCode.MergeUserMessages
import NoriCode.InFlightTurns
import NoriCode.EditFile
import NoriCode.ToolCallIds
import NoriCode.ChatCompletionStream
import NoriCode.BackgroundOutput
import NoriCode.PathAccess
import NoriCode.TurnStep
import NoriCode.KaosUtf8
import NoriCode.TeamVote
import NoriCode.FsPathSafety
import NoriCode.TeamDismissal
import NoriCode.SshCommand
import NoriCode.CompactionRound
import NoriCode.RecordPersistence
import NoriCode.SessionPages
import NoriCode.RecentPrompts
