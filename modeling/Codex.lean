import Codex.Agents.Nicknames
import Codex.Agents.Reservations
import Codex.AppServer.RequestQueues
import Codex.ApplyPatch.Exactness
import Codex.ApplyPatch.Frame
import Codex.ApplyPatch.Growth
import Codex.ApplyPatch.Preview
import Codex.ApplyPatch.Refinement
import Codex.ApplyPatch.RoundTrip
import Codex.ApplyPatch.UpdateOutcome
import Codex.BottomPane.Runs
import Codex.CodeMode.CellActor
import Codex.Config.ComposedRequirements
import Codex.Config.DomainOverlay
import Codex.Config.Origins
import Codex.Config.Overrides
import Codex.ExecPolicy.HostNormalForm
import Codex.ExecPolicy.LinearScan
import Codex.ExecPolicy.Proposal
import Codex.ExecPolicy.Restart
import Codex.ExecServer.FailedRecovery
import Codex.ExecServer.OutputPaging
import Codex.ExecServer.SessionRegistry
import Codex.ExecServer.StdinWrites
import Codex.HostConnection.Answers
import Codex.McpDiscovery.Consent
import Codex.NativePath.Join
import Codex.NetworkProxy.Bookkeeping
import Codex.NetworkProxy.Containment
import Codex.NetworkProxy.CredentialIsolation
import Codex.NetworkProxy.LastDecision
import Codex.NoiseRelay.Reordering
import Codex.NoiseRelay.Stream
import Codex.Permissions.Additional
import Codex.Permissions.LegacyRoundTrip
import Codex.Permissions.Materialize
import Codex.Readiness.Wakeup
import Codex.RemoteControl.Delivery
import Codex.RemoteControl.Splitting
import Codex.RemoteControl.TrackerEvents
import Codex.Rollout.RemoveFirst
import Codex.Rollout.TurnStack
import Codex.Rollout.Uncovered
import Codex.Rollout.WorldState
import Codex.StreamParser.AssistantText
import Codex.StreamParser.Utf8Stream
import Codex.Text.FuzzyMatch
import Codex.Text.Template
import Codex.ThreadHistory.ItemIds
import Codex.ThreadHistory.Rollback
import Codex.ToolSchema.References
import Codex.Truncation.HeadTailBuffer
import Codex.Truncation.Middle
import Codex.TurnDiff.HashOrder
