import Blockchain.Chain.Primitives
import Blockchain.Chain.ScriptNumber
import Blockchain.Chain.Sigops
import Blockchain.Chain.HashNumber
import Blockchain.Chain.Dispatcher
import Blockchain.Validate.Validator
import Blockchain.Validate.CheckBlock
import Blockchain.Validate.WorkRequired
import Blockchain.Validate.AcceptBlock
import Blockchain.Validate.ConnectBlock
import Blockchain.Validate.ConnectInputs
import Blockchain.Populate.Block
import Blockchain.Populate.ChainState
import Blockchain.Pool.Buffer
import Blockchain.Pool.System
import Blockchain.Pool.Requests
import Blockchain.Pool.Confirm
import Blockchain.Pool.Ring
import Blockchain.Pool.Order
