import EngineCore.AaTypes.UserOp
import EngineCore.Eoa.Budget
import EngineCore.Eoa.Ordering
import EngineCore.Eoa.Owner
import EngineCore.Eoa.Partition
import EngineCore.Eoa.Replacement
import EngineCore.Eoa.ReplayKey
import EngineCore.Eoa.Rows
import EngineCore.Eoa.Scheduling
import EngineCore.Eoa.Settled
import EngineCore.Executors.Fence
import EngineCore.ExternalBundler.Corroboration
import EngineCore.ExternalBundler.Deployment
import EngineCore.Recovery.Fairness
import EngineCore.Recovery.Quarantine
import EngineCore.Rpc.Redaction
import EngineCore.Server.Cancel
import EngineCore.Solana.Outcomes
import EngineCore.Solana.Retained
import EngineCore.Solana.StatusBatcher
import EngineCore.Twmq.Attempts
import EngineCore.Twmq.Delays
import EngineCore.Twmq.Diagnostics
import EngineCore.Twmq.Fair
