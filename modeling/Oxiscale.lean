import Oxiscale.Edits
import Oxiscale.Failures
import Oxiscale.Reformat
import Oxiscale.Torn
import Oxiscale.Durable
import Oxiscale.Isolation
import Oxiscale.Tenancy
import Oxiscale.Sound
import Oxiscale.Reload
import Oxiscale.Accept
import Oxiscale.EarlyNoise
import Oxiscale.Unknown
import Oxiscale.Reader
import Oxiscale.Epochs
import Oxiscale.Alone
import Oxiscale.Rows
import Oxiscale.Serial
import Oxiscale.Edge
import Oxiscale.Duplex
