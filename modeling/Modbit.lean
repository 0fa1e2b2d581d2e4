import Modbit.EventStore.Idempotence
import Modbit.EventStore.Rebuild
import Modbit.EventStore.ScopeExclusion
import Modbit.EventStore.Fencing
import Modbit.EventStore.OutputRefs
import Modbit.EventStore.RuntimeParity
import Modbit.Retrieval.MerkleRebuild
import Modbit.Retrieval.ContextGraph
import Modbit.Retrieval.Freshness
import Modbit.Compaction.Shape
import Modbit.Compaction.Epochs
import Modbit.Workspace.Containment
import Modbit.Workspace.Revisions
import Modbit.Workspace.Journal
import Modbit.Workspace.MergeRecovery
import Modbit.Protocol.HexTexts
import Modbit.Checkpoint.LeaseFencer
import Modbit.Agent.Approvals
import Modbit.Agent.NormalArguments
import Modbit.Agent.Restart
import Modbit.Agent.AssembledStreams
import Modbit.Agent.ExactEdits
import Modbit.Agent.Checkpoints
import Modbit.Agent.Steering
import Modbit.Providers.Streaming
import Modbit.Providers.Routing
import Modbit.Providers.Transport
import Modbit.Fleet.Durability
import Modbit.Automation.CronExact
import Modbit.Automation.ExactlyOnce
import Modbit.Desktop.ResponseDecoding
import Modbit.Sandbox.GuestFencing
import Modbit.Sandbox.GuestContainment
import Modbit.Sandbox.PtyReads
import Modbit.Workspace.MatchLadder
import Modbit.Daemon.Replay
import Modbit.Daemon.Connection
import Modbit.Secrets.Redaction
import Modbit.Git.HunkRoundTrip
import Modbit.Policy.Mediation
import Modbit.Terminal.Captures
import Modbit.Agent.ExternalCalls
import Modbit.Agent.EditCheckpoints
import Modbit.Checkpoint.EngineeringMemory
import Modbit.Agent.ProceduralRuntime
import Modbit.Context.PromptCompiler
import Modbit.Context.Recoverability
import Modbit.Verification.EvidenceIndex
import Modbit.Policy.ConfigLayers
import Modbit.Policy.ApprovalStore
import Modbit.Skills.Registry
import Modbit.Desktop.RequestChain
import Modbit.Diagnostics.LspSession
import Modbit.Review.Checklist
import Modbit.Agent.ShellWords
import Modbit.Checkpoint.SecretHandles
import Modbit.Agent.RepairFeed
import Modbit.Secrets.CredentialBroker
import Modbit.Fleet.Governor
